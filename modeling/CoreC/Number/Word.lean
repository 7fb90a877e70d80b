/-! # Integers seen through a fixed number of bits

The machine computes on unbounded integers and cuts results down to words. The
bitwise operators act on the infinite two's-complement expansion, so they need
no width of their own.
-/

namespace CoreC.Number

/-- Powers are those of the core library, whatever other algebra is in scope. -/
@[default_instance 20000]
instance (priority := 2000) natPower : Pow Nat Nat := instPowNat

@[inherit_doc natPower]
instance (priority := 2000) intPower : Pow Int Nat := instPowNat

/-- The integer that a signed word of `bits` bits holds after `n` is stored in it. -/
def signedWord (bits : Nat) (n : Int) : Int :=
  Int.bmod n (2 ^ bits)

/-- The number that an unsigned word of `bits` bits holds after `n` is stored in it. -/
def unsignedWord (bits : Nat) (n : Int) : Nat :=
  (n % 2 ^ bits).toNat

/-- A number of bytes as a distance between addresses, which is a signed 64-bit word:
sizes from `2 ^ 63` on lead backwards. -/
def displacement (bytes : Nat) : Int := signedWord 64 bytes

/-- The bits of `m` that are not bits of `n`. -/
def bitsOutside (m n : Nat) : Nat :=
  m ^^^ (m &&& n)

/-- Bitwise conjunction of two's-complement expansions. -/
def bitAnd : Int → Int → Int
  | .ofNat m, .ofNat n => .ofNat (m &&& n)
  | .ofNat m, .negSucc n => .ofNat (bitsOutside m n)
  | .negSucc m, .ofNat n => .ofNat (bitsOutside n m)
  | .negSucc m, .negSucc n => .negSucc (m ||| n)

/-- Bitwise disjunction of two's-complement expansions. -/
def bitOr : Int → Int → Int
  | .ofNat m, .ofNat n => .ofNat (m ||| n)
  | .ofNat m, .negSucc n => .negSucc (bitsOutside n m)
  | .negSucc m, .ofNat n => .negSucc (bitsOutside m n)
  | .negSucc m, .negSucc n => .negSucc (m &&& n)

/-- Bitwise exclusive disjunction of two's-complement expansions. -/
def bitXor : Int → Int → Int
  | .ofNat m, .ofNat n => .ofNat (m ^^^ n)
  | .ofNat m, .negSucc n => .negSucc (m ^^^ n)
  | .negSucc m, .ofNat n => .negSucc (m ^^^ n)
  | .negSucc m, .negSucc n => .ofNat (m ^^^ n)

/-- Bitwise complement of a two's-complement expansion. -/
def bitNot (n : Int) : Int :=
  -n - 1

/-- Lower-case hexadecimal digits of a number, without leading zeros. -/
def hexText (n : Nat) : String :=
  String.ofList (Nat.toDigits 16 n)

/-- Hexadecimal digits of a number, with zeros in front up to a number of digits. -/
def hexPadded (digits n : Nat) : String :=
  String.ofList (List.replicate (digits - (hexText n).length) '0') ++ hexText n

def hexDigit? (c : Char) : Option Nat :=
  if '0' ≤ c ∧ c ≤ '9' then some (c.toNat - '0'.toNat)
  else if 'a' ≤ c ∧ c ≤ 'f' then some (c.toNat - 'a'.toNat + 10)
  else if 'A' ≤ c ∧ c ≤ 'F' then some (c.toNat - 'A'.toNat + 10)
  else none

/-- The number that hexadecimal digits spell, the highest digit first. -/
def ofHex? (digits : List Char) : Option Nat :=
  digits.foldlM (fun n c => (hexDigit? c).map (16 * n + ·)) 0

end CoreC.Number
