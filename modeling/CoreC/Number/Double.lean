import CoreC.Number.Binary

/-! # Double-precision numbers as bit patterns

A `Double` is its 64-bit word, so that signs of zero and payloads of NaNs survive
being stored and read back byte by byte. Arithmetic is IEEE arithmetic: the exact
result is rounded to the nearest double. A NaN operand is passed on with its quiet bit
set, and an operation without a result gives the default NaN. Equality is IEEE
equality: zeros of both signs are equal, and a NaN differs from everything.
-/

namespace CoreC

open Number (Format Scaled)

/-- A double-precision number, NaNs included. -/
structure Double where
  bits : UInt64
  deriving DecidableEq

namespace Double

/-- All bits but the sign. -/
def magnitude (x : Double) : Nat := x.bits.toNat % 2 ^ 63

/-- Whether the sign bit is set. -/
def negative (x : Double) : Bool := decide (2 ^ 63 ≤ x.bits.toNat)

def isNaN (x : Double) : Bool := decide (Format.double.infinity < x.magnitude)

def isFinite (x : Double) : Bool := decide (x.magnitude < Format.double.infinity)

/-- The word with the given sign and magnitude bits. -/
def ofMagnitude (negative : Bool) (magnitude : Nat) : Double :=
  ⟨UInt64.ofNat (if negative then 2 ^ 63 + magnitude else magnitude)⟩

def zero : Double := ofMagnitude false 0

/-- The NaN of an operation that has no result. -/
def invalid : Double := ⟨0xfff8000000000000⟩

/-- A NaN with its quiet bit set. -/
def quiet (x : Double) : Double := ⟨x.bits ||| 0x0008000000000000⟩

def ofRatio (negative : Bool) (num den : Nat) : Double :=
  ofMagnitude negative (Format.double.encodeRatio num den)

def ofInt (n : Int) : Double := ofRatio (decide (n < 0)) n.natAbs 1

/-- Exact absolute value of a finite double. -/
def scaled (x : Double) : Scaled := Format.double.decode x.magnitude

/-- A finite double cut to an integer, toward zero. -/
def truncate (x : Double) : Int :=
  let whole : Int := (x.scaled.num / x.scaled.den : Nat)
  if x.negative then -whole else whole

/-- Position on the line of all doubles but the NaNs; both zeros share one. -/
def rank (x : Double) : Int := if x.negative then -(x.magnitude : Int) else x.magnitude

/-- How two doubles compare; nothing compares with a NaN. -/
def compare? (x y : Double) : Option Ordering :=
  if x.isNaN || y.isNaN then none else some (compare x.rank y.rank)

instance : BEq Double := ⟨fun x y => x.compare? y == some .eq⟩

def neg (x : Double) : Double := ⟨x.bits ^^^ 0x8000000000000000⟩

def isZero (x : Double) : Bool := x.magnitude = 0

def infinite (negative : Bool) : Double := ofMagnitude negative Format.double.infinity

/-- Exact numerator of a finite double, with its sign. -/
def numerator (x : Double) : Int := if x.negative then -(x.scaled.num : Int) else x.scaled.num

/-- The sum of two finite doubles. A sum of zero is negative only if both are. -/
def addFinite (x y : Double) : Double :=
  let sum := x.numerator * y.scaled.den + y.numerator * x.scaled.den
  if sum = 0 then ofMagnitude (x.negative && y.negative) 0
  else ofRatio (decide (sum < 0)) sum.natAbs (x.scaled.den * y.scaled.den)

/-- An operation on doubles that passes on a NaN among its operands. -/
def withoutNaN (op : Double → Double → Double) (x y : Double) : Double :=
  if x.isNaN then x.quiet else if y.isNaN then y.quiet else op x y

def addNumbers (x y : Double) : Double :=
  if x.isFinite then if y.isFinite then addFinite x y else y
  else if y.isFinite || x.negative == y.negative then x
  else invalid

def add (x y : Double) : Double := withoutNaN addNumbers x y

def sub (x y : Double) : Double := withoutNaN (fun x y => addNumbers x y.neg) x y

def mulNumbers (x y : Double) : Double :=
  let negative := x.negative != y.negative
  if x.isFinite && y.isFinite then
    ofRatio negative (x.scaled.num * y.scaled.num) (x.scaled.den * y.scaled.den)
  else if x.isZero || y.isZero then invalid
  else infinite negative

def mul (x y : Double) : Double := withoutNaN mulNumbers x y

def divNumbers (x y : Double) : Double :=
  let negative := x.negative != y.negative
  if x.isFinite then
    if !y.isFinite then ofMagnitude negative 0
    else if !y.isZero then
      ofRatio negative (x.scaled.num * y.scaled.den) (x.scaled.den * y.scaled.num)
    else if x.isZero then invalid
    else infinite negative
  else if y.isFinite then infinite negative
  else invalid

def div (x y : Double) : Double := withoutNaN divNumbers x y

/-- Fraction bits that a double has beyond a single. -/
def extraBits : Nat := 2 ^ 29

/-- Word of the single nearest to a double. A NaN keeps the top of its payload. -/
def toSingleWord (x : Double) : Nat :=
  let magnitude :=
    if x.isNaN then
      Format.single.infinity ||| 0x400000 |||
        ((x.magnitude - Format.double.infinity) / extraBits)
    else if x.isFinite then Format.single.encodeRatio x.scaled.num x.scaled.den
    else Format.single.infinity
  if x.negative then 2 ^ 31 + magnitude else magnitude

/-- The double with the value of a single's word. -/
def ofSingleWord (word : Nat) : Double :=
  let negative := decide (2 ^ 31 ≤ word)
  let magnitude := word % 2 ^ 31
  if Format.single.infinity < magnitude then
    quiet (ofMagnitude negative
      (Format.double.infinity + (magnitude - Format.single.infinity) * extraBits))
  else if magnitude = Format.single.infinity then ofMagnitude negative Format.double.infinity
  else
    let value := Format.single.decode magnitude
    ofRatio negative value.num value.den

def roundToSingle (x : Double) : Double := ofSingleWord x.toSingleWord

end Double

end CoreC
