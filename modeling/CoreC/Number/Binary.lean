import CoreC.Number.Word

/-! # Binary floating formats

A positive number in a binary format is a significand times a power of two. This
module rounds an exact ratio to a format, to nearest with ties to an even
significand, and converts between the rounded number and the magnitude bits of
its word (all bits but the sign).
-/

namespace CoreC.Number

/-- A quotient rounded to the nearest integer, a half going to the even neighbour. -/
def roundDiv (num den : Nat) : Nat :=
  let quotient := num / den
  let rest := num % den
  if 2 * rest < den then quotient
  else if den < 2 * rest then quotient + 1
  else if quotient % 2 = 0 then quotient
  else quotient + 1

/-- The greatest `k` with `2 ^ k ≤ num / den`, for positive `num` and `den`. -/
def log2Ratio (num den : Nat) : Int :=
  let estimate : Int := (Nat.log2 num : Int) - Nat.log2 den
  if num * 2 ^ (-estimate).toNat < den * 2 ^ estimate.toNat then estimate - 1 else estimate

/-- The number `significand * 2 ^ exponent`. -/
structure Scaled where
  significand : Nat
  exponent : Int
  deriving DecidableEq

namespace Scaled

def num (x : Scaled) : Nat := x.significand * 2 ^ x.exponent.toNat

def den (x : Scaled) : Nat := 2 ^ (-x.exponent).toNat

end Scaled

/-- A binary interchange format: significand width in bits, and the exponents of
the last significand bit of its smallest and largest numbers. -/
structure Format where
  precision : Nat
  least : Int
  greatest : Int

namespace Format

def single : Format := ⟨24, -149, 104⟩

def double : Format := ⟨53, -1074, 971⟩

/-- Significands from here on have the full width. -/
def fullWidth (fmt : Format) : Nat := 2 ^ (fmt.precision - 1)

/-- Magnitude bits of infinity; larger magnitudes are not numbers. -/
def infinity (fmt : Format) : Nat :=
  (fmt.greatest - fmt.least + 2).toNat * fmt.fullWidth

/-- The number of the format nearest to `num / den`; `none` when that overflows. -/
def round (fmt : Format) (num den : Nat) : Option Scaled :=
  if num = 0 then some ⟨0, fmt.least⟩
  else
    let exponent := max fmt.least (log2Ratio num den - (fmt.precision - 1))
    let rounded := roundDiv (num * 2 ^ (-exponent).toNat) (den * 2 ^ exponent.toNat)
    let result : Scaled :=
      if rounded = 2 * fmt.fullWidth then ⟨fmt.fullWidth, exponent + 1⟩ else ⟨rounded, exponent⟩
    if fmt.greatest < result.exponent then none else some result

/-- Magnitude bits of a number of the format. -/
def encode (fmt : Format) (x : Scaled) : Nat :=
  (x.exponent - fmt.least).toNat * fmt.fullWidth + x.significand

/-- Magnitude bits of the ratio `num / den`, infinity when it overflows. -/
def encodeRatio (fmt : Format) (num den : Nat) : Nat :=
  match fmt.round num den with
  | some x => fmt.encode x
  | none => fmt.infinity

/-- The number that finite magnitude bits stand for. -/
def decode (fmt : Format) (magnitude : Nat) : Scaled :=
  let field := magnitude / fmt.fullWidth
  let fraction := magnitude % fmt.fullWidth
  if field = 0 then ⟨fraction, fmt.least⟩
  else ⟨fmt.fullWidth + fraction, fmt.least + (field - 1 : Nat)⟩

end Format

end CoreC.Number
