import CoreC.Number.Double

/-! # Decimal text of doubles

Writing takes the fewest digits that read back as the same double, and among
those the decimal nearest to it. Reading rounds the exact decimal to the nearest
double. Both compute on exact ratios.
-/

namespace CoreC

open Number (roundDiv log2Ratio)

/-- The number `digits * 10 ^ exponent`. -/
structure Decimal where
  digits : Nat
  exponent : Int
  deriving DecidableEq

namespace Decimal

/-- The greatest `k` with `10 ^ k ≤ num / den`, for positive `num` and `den`. -/
def log10Ratio (num den : Nat) : Int :=
  let estimate : Int := (log2Ratio num den * 30103).fdiv 100000
  let below (k : Int) : Bool := num * 10 ^ (-k).toNat < den * 10 ^ k.toNat
  if below estimate then estimate - 1
  else if below (estimate + 1) then estimate
  else estimate + 1

/-- The decimals that read back as one double: they lie between `low` and `high`,
all over `den`, the ends counting only when `closed`. -/
structure Neighbourhood where
  value : Nat
  low : Nat
  high : Nat
  den : Nat
  closed : Bool

namespace Neighbourhood

/-- The reals that round to a finite nonzero double. -/
def ofDouble (x : Double) : Neighbourhood :=
  let m := x.scaled.significand
  let up := 2 ^ (x.scaled.exponent - 2).toNat
  let narrow := m = 2 ^ 52 ∧ -1074 < x.scaled.exponent
  { value := 4 * m * up
    low := (4 * m - (if narrow then 1 else 2)) * up
    high := (4 * m + 2) * up
    den := 2 ^ (2 - x.scaled.exponent).toNat
    closed := m % 2 = 0 }

/-- Whether a decimal reads back as the double. -/
def contains (n : Neighbourhood) (d : Decimal) : Bool :=
  let point := d.digits * n.den * 10 ^ d.exponent.toNat
  let scale := 10 ^ (-d.exponent).toNat
  if n.closed then n.low * scale ≤ point && point ≤ n.high * scale
  else n.low * scale < point && point < n.high * scale

/-- The decimal on the grid of `10 ^ exponent` nearest to the value among its two
neighbours that read back; the larger one when both are equally near. -/
def onGrid (n : Neighbourhood) (exponent : Int) : Option Decimal :=
  let num := n.value * 10 ^ (-exponent).toNat
  let den := n.den * 10 ^ exponent.toNat
  let below : Decimal := ⟨num / den, exponent⟩
  let above : Decimal := ⟨num / den + 1, exponent⟩
  let nearer := if 2 * (num % den) < den then below else above
  let farther := if 2 * (num % den) < den then above else below
  if n.contains nearer then some nearer
  else if n.contains farther then some farther
  else none

/-- The decimal on the coarsest of `count` ever finer grids that reads back. -/
def shortest (n : Neighbourhood) : Nat → Int → Decimal
  | 0, exponent => ⟨n.value * 10 ^ (-exponent).toNat / (n.den * 10 ^ exponent.toNat), exponent⟩
  | count + 1, exponent =>
      match n.onGrid exponent with
      | some d => d
      | none => shortest n count (exponent - 1)

end Neighbourhood

/-- The fewest digits that read back as a finite double; seventeen always suffice. The
coarsest grid is that of the power of ten above the value, which may itself read back.
A decimal that ends in zero lies on the next coarser grid, so the last digit is never
zero. -/
def ofDouble (x : Double) : Decimal :=
  if x.magnitude = 0 then ⟨0, 0⟩
  else
    let n := Neighbourhood.ofDouble x
    n.shortest 18 (log10Ratio n.value n.den + 1)

/-- Digits and point, without an exponent. -/
def positional (d : Decimal) : String :=
  let digits := toString d.digits
  match d.exponent with
  | .ofNat zeros => digits ++ String.ofList (List.replicate zeros '0')
  | .negSucc n =>
      let places := n + 1
      let padded := String.ofList (List.replicate (places + 1 - digits.length) '0') ++ digits
      let chars := padded.toList
      let whole := chars.take (chars.length - places)
      String.ofList whole ++ "." ++ String.ofList (chars.drop (chars.length - places))

/-- Whether `digits * 10 ^ exponent` overflows every format in use, or vanishes in it. -/
def beyondRange (d : Decimal) : Option Ordering :=
  let top : Int := (toString d.digits).length + d.exponent
  if 400 < top then some .gt else if top < -400 then some .lt else none

def toDouble (d : Decimal) (negative : Bool) : Double :=
  if d.digits = 0 then Double.ofMagnitude negative 0
  else
    match d.beyondRange with
    | some .gt => Double.ofMagnitude negative Number.Format.double.infinity
    | some _ => Double.ofMagnitude negative 0
    | none =>
        Double.ofRatio negative (d.digits * 10 ^ d.exponent.toNat) (10 ^ (-d.exponent).toNat)

end Decimal

namespace Double

/-- Text of the numbers that have no digits, and of the sign and digits of the others. -/
def textWith (x : Double) (digits : Double → String) : String :=
  if x.isNaN then "NaN"
  else
    let sign := if x.negative then "-" else ""
    if x.isFinite then sign ++ digits x else sign ++ "inf"

/-- Shortest positional text. A whole number has no point. -/
def text (x : Double) : String :=
  x.textWith fun x => (Decimal.ofDouble x).positional

/-- Text with exactly `places` digits after the point, a half going to the even digit. -/
def fixedText (places : Nat) (x : Double) : String :=
  x.textWith fun x =>
    Decimal.positional
      ⟨roundDiv (x.scaled.num * 10 ^ places) x.scaled.den, -(places : Int)⟩

/-- Value of a run of decimal digits, with its length and what follows it. -/
def readDigits : List Char → Nat → Nat → Nat × Nat × List Char
  | [], value, count => (value, count, [])
  | c :: rest, value, count =>
      if c.isDigit then readDigits rest (value * 10 + (c.toNat - '0'.toNat)) (count + 1)
      else (value, count, c :: rest)

/-- The exponent part of a decimal, zero when there is none. -/
def readExponent : List Char → Option Int
  | [] => some 0
  | c :: rest =>
      if c = 'e' || c = 'E' then
        let (negative, rest) := match rest with
          | '-' :: rest => (true, rest)
          | '+' :: rest => (false, rest)
          | rest => (false, rest)
        match readDigits rest 0 0 with
        | (_, 0, _) => none
        | (value, _, []) => some (if negative then -(value : Int) else value)
        | _ => none
      else none

/-- An unsigned decimal: digits on at least one side of an optional point, and an
optional exponent. -/
def readUnsigned (chars : List Char) : Option Decimal :=
  let (whole, wholeCount, rest) := readDigits chars 0 0
  let (digits, places, rest) := match rest with
    | '.' :: rest => readDigits rest whole 0
    | rest => (whole, 0, rest)
  if wholeCount + places = 0 then none
  else (readExponent rest).map fun exponent => ⟨digits, exponent - (places : Int)⟩

/-- Reads decimal text, `inf`, `infinity` or `nan`, each with an optional sign. -/
def ofText? (text : String) : Option Double :=
  let (negative, chars) := match text.toList with
    | '-' :: rest => (true, rest)
    | '+' :: rest => (false, rest)
    | rest => (false, rest)
  let word := String.ofList (chars.map Char.toLower)
  if word = "inf" || word = "infinity" then
    some (ofMagnitude negative Number.Format.double.infinity)
  else if word = "nan" then
    some (ofMagnitude negative (Number.Format.double.infinity + 2 ^ 51))
  else (readUnsigned chars).map fun d => d.toDouble negative

end Double

end CoreC
