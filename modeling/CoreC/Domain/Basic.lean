import CoreC.Domain.Integer
import CoreC.Memory.BytePattern
import CoreC.Number.Decimal

/-! # Value domains

A domain fixes what the machine knows of a number: `ι` holds integers and `φ`
floating numbers. An operation returns every outcome that the data allow, without
repetition, in a fixed order. A domain never guesses: where its data do not settle
a result, the result covers all cases.
-/

namespace CoreC

class Domain (ι φ : Type) where
  /-- Data of an exact integer that lies in the range of its type. -/
  ofInt : Int → ι
  /-- The exact integer, when the data determine it. -/
  known? : ι → Option Int
  intText : ι → String
  /-- Arithmetic and bitwise operators on two integers of the type. -/
  arith : Target → IntType → BinOp → ι → ι → Except Fault (List ι)
  compare : BinOp → ι → ι → List Bool
  /-- The operators `-`, `+` and `~`. -/
  unary : Target → IntType → UnOp → ι → Except Fault (List ι)
  truth : ι → List Bool
  cast : Target → IntType → IntType → ι → List ι
  toBytes : Target → IntType → ι → BytePattern
  ofBytes : Target → IntType → BytePattern → Except Fault (List ι)
  ofDouble : FloatKind → Double → φ
  floatText : φ → String
  /-- Text of a floating number with six places, where it has digits. -/
  fixedText : φ → String
  floatOfInt : FloatKind → ι → φ
  intOfFloat : Target → IntType → φ → Except Fault (List ι)
  floatArith : FloatKind → BinOp → φ → φ → Except Fault (List φ)
  floatCompare : BinOp → φ → φ → List Bool
  floatUnary : UnOp → φ → Except Fault (List φ)
  floatTruth : φ → List Bool
  floatCast : FloatKind → φ → φ
  floatToBytes : Target → FloatKind → φ → BytePattern
  floatOfBytes : Target → FloatKind → BytePattern → Except Fault (List φ)

/-- Unknown bits that are tried one by one before a pattern counts as undetermined. -/
def maxUnknownBits : Nat := 8

/-- Bit pattern of a double stored in a floating type of the target. -/
def Target.encodeDouble (t : Target) (kind : FloatKind) (x : Double) : BytePattern :=
  let width := t.floatWidth kind
  .ofNat (if width = 4 then x.toSingleWord else x.bits.toNat) width

def Target.decodeDouble (t : Target) (kind : FloatKind) (pattern : Nat) : Double :=
  if t.floatWidth kind = 4 then .ofSingleWord (pattern % 2 ^ 32) else ⟨UInt64.ofNat pattern⟩

end CoreC
