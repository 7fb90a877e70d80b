import CoreC.Json.Basic

/-! # Reading JSON text

The reader accepts exactly the JSON grammar: no comments, no trailing commas, no
leading zeros. A string whose escapes leave half a character is within the grammar and
is read as a garbled value. The fuel bounds the nesting and the number of items, and the
length of the text is enough of it.
-/

namespace CoreC.Json

namespace Reader

def isSpace (c : Char) : Bool := c = ' ' || c = '\n' || c = '\t' || c = '\r'

def skipSpace (chars : List Char) : List Char := chars.dropWhile isSpace

def hexUnit? (a b c d : Char) : Option Nat := Number.ofHex? [a, b, c, d]

/-- The character of a one-letter escape. -/
def escaped? (c : Char) : Option Char :=
  if c = '"' || c = '\\' || c = '/' then some c
  else if c = 'b' then some (Char.ofNat 8)
  else if c = 'f' then some (Char.ofNat 12)
  else if c = 'n' then some '\n'
  else if c = 'r' then some '\r'
  else if c = 't' then some '\t'
  else none

/-- Whether a 16-bit unit is the first, or the second, half of a character. -/
def isHighHalf (unit : Nat) : Bool := 0xd800 ≤ unit && unit < 0xdc00

def isLowHalf (unit : Nat) : Bool := 0xdc00 ≤ unit && unit < 0xe000

/-- The characters read so far, in reverse, with the one of a 16-bit unit; nothing once
half a character was read. -/
def pushUnit (read : Option (List Char)) (unit : Nat) : Option (List Char) :=
  if isHighHalf unit || isLowHalf unit then none else read.map (Char.ofNat unit :: ·)

/-- The rest of a string after its opening quote, and what follows the closing one.
The characters read so far are kept in reverse; there are none, and the string is
garbled, once half a character was read. -/
def string? : List Char → Option (List Char) → Option (Option String × List Char)
  | [], _ => none
  | '"' :: rest, read => some (read.map fun read => String.ofList read.reverse, rest)
  | '\\' :: 'u' :: a :: b :: c :: d :: '\\' :: 'u' :: e :: f :: g :: h :: rest, read => do
      let unit ← hexUnit? a b c d
      let next ← hexUnit? e f g h
      if isHighHalf unit && isLowHalf next then
        let code := 0x10000 + (unit - 0xd800) * 0x400 + (next - 0xdc00)
        string? rest (read.map (Char.ofNat code :: ·))
      else string? ('\\' :: 'u' :: e :: f :: g :: h :: rest) (pushUnit read unit)
  | '\\' :: 'u' :: a :: b :: c :: d :: rest, read => do
      string? rest (pushUnit read (← hexUnit? a b c d))
  | '\\' :: c :: rest, read => do
      let c ← escaped? c
      string? rest (read.map (c :: ·))
  | c :: rest, read =>
      if c = '\\' || c.toNat < 0x20 then none else string? rest (read.map (c :: ·))
termination_by chars => chars.length

/-- The fraction of a number: digits read on from the whole part, and their count. -/
def fraction? (whole : Nat) : List Char → Option (Nat × Nat × List Char)
  | '.' :: rest =>
      match Double.readDigits rest whole 0 with
      | (_, 0, _) => none
      | result => some result
  | rest => some (whole, 0, rest)

def exponent? : List Char → Option (Option Int × List Char)
  | [] => some (none, [])
  | c :: rest =>
      if c = 'e' || c = 'E' then
        let (negative, rest) := match rest with
          | '-' :: rest => (true, rest)
          | '+' :: rest => (false, rest)
          | rest => (false, rest)
        match Double.readDigits rest 0 0 with
        | (_, 0, _) => none
        | (value, _, rest) => some (some (if negative then -(value : Int) else value), rest)
      else some (none, c :: rest)

def unsigned? (negative : Bool) (chars : List Char) : Option (Numeral × List Char) := do
  let (whole, count, rest) := Double.readDigits chars 0 0
  if count = 0 then none
  else if 1 < count && chars.head? = some '0' then none
  else
    let (digits, places, rest) ← fraction? whole rest
    let (exponent, rest) ← exponent? rest
    let decimal : Decimal := ⟨digits, exponent.getD 0 - (places : Int)⟩
    return (⟨negative, decimal, places = 0 && exponent.isNone⟩, rest)

def number? : List Char → Option (Numeral × List Char)
  | '-' :: rest => unsigned? true rest
  | chars => unsigned? false chars

mutual

def value? : Nat → List Char → Option (Json × List Char)
  | 0, _ => none
  | fuel + 1, chars =>
      match skipSpace chars with
      | 'n' :: 'u' :: 'l' :: 'l' :: rest => some (.null, rest)
      | 't' :: 'r' :: 'u' :: 'e' :: rest => some (.bool true, rest)
      | 'f' :: 'a' :: 'l' :: 's' :: 'e' :: rest => some (.bool false, rest)
      | '"' :: rest =>
          (string? rest (some [])).map fun (text, rest) => ((text.map .str).getD .garbled, rest)
      | '[' :: rest =>
          match skipSpace rest with
          | ']' :: rest => some (.arr [], rest)
          | rest => items? fuel rest []
      | '{' :: rest =>
          match skipSpace rest with
          | '}' :: rest => some (.obj [], rest)
          | rest => members? fuel rest (some [])
      | rest => (number? rest).map fun (n, rest) => (.num n, rest)

/-- The items of an array up to its closing bracket, those read so far in reverse. -/
def items? : Nat → List Char → List Json → Option (Json × List Char)
  | 0, _, _ => none
  | fuel + 1, chars, read =>
      match value? fuel chars with
      | none => none
      | some (item, rest) =>
          match skipSpace rest with
          | ',' :: rest => items? fuel rest (item :: read)
          | ']' :: rest => some (.arr (item :: read).reverse, rest)
          | _ => none

/-- The members of an object up to its closing brace, those read so far in reverse;
there are none, and the object is garbled, once a garbled name was read. -/
def members? : Nat → List Char → Option (List (String × Json)) → Option (Json × List Char)
  | 0, _, _ => none
  | fuel + 1, chars, read =>
      match skipSpace chars with
      | '"' :: rest =>
          match string? rest (some []) with
          | none => none
          | some (name, rest) =>
              match skipSpace rest with
              | ':' :: rest =>
                  match value? fuel rest with
                  | none => none
                  | some (item, rest) =>
                      let read := read.bind fun read => name.map fun name => (name, item) :: read
                      match skipSpace rest with
                      | ',' :: rest => members? fuel rest read
                      | '}' :: rest =>
                          some ((read.map fun read => .obj read.reverse).getD .garbled, rest)
                      | _ => none
              | _ => none
      | _ => none

end

end Reader

def ofText? (text : String) : Option Json :=
  let chars := text.toList
  match Reader.value? (2 * chars.length + 2) chars with
  | some (value, rest) => if (Reader.skipSpace rest).isEmpty then some value else none
  | none => none

end CoreC.Json
