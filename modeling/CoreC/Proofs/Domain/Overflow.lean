import CoreC.Proofs.Domain.Ranged
import Mathlib.Data.Nat.Bitwise

/-! # Results that stay in range

On a two's-complement target an operator gives the mathematical result of its operands, as
long as that lies in the range of the type. Sums, products and quotients may leave the range;
bitwise operators, remainders and shifts to the right never do.
-/

namespace CoreC

open Int

namespace Number

/-- The bits below the sign of a two's-complement expansion, seen through the sign. -/
def payload : Int → Nat
  | .ofNat m => m
  | .negSucc m => m

/-- The payload of a number fits into so many bits, whatever its sign. -/
theorem payload_lt_iff {n : Int} {bound : Nat} :
    payload n < bound ↔ -(bound : Int) ≤ n ∧ n < bound := by
  cases n with
  | ofNat m => simp only [payload, ofNat_eq_natCast]; omega
  | negSucc m => simp only [payload]; omega

theorem bitsOutside_lt {m n bits : Nat} (hm : m < 2 ^ bits) : bitsOutside m n < 2 ^ bits :=
  Nat.xor_lt_two_pow hm (Nat.lt_of_le_of_lt Nat.and_le_left hm)

section Bitwise

variable {a b : Int} {bits : Nat} (ha : payload a < 2 ^ bits) (hb : payload b < 2 ^ bits)
include ha hb

theorem payload_bitAnd_lt : payload (bitAnd a b) < 2 ^ bits := by
  cases a <;> cases b <;> simp only [payload, bitAnd] at *
  · exact Nat.lt_of_le_of_lt Nat.and_le_left ha
  · exact bitsOutside_lt ha
  · exact bitsOutside_lt hb
  · exact Nat.or_lt_two_pow ha hb

theorem payload_bitOr_lt : payload (bitOr a b) < 2 ^ bits := by
  cases a <;> cases b <;> simp only [payload, bitOr] at *
  · exact Nat.or_lt_two_pow ha hb
  · exact bitsOutside_lt hb
  · exact bitsOutside_lt ha
  · exact Nat.lt_of_le_of_lt Nat.and_le_left ha

theorem payload_bitXor_lt : payload (bitXor a b) < 2 ^ bits := by
  cases a <;> cases b <;> exact Nat.xor_lt_two_pow ha hb

end Bitwise

end Number

/-- The mathematical result of an operator whose results may be too large for a type. -/
def BinOp.unbounded? (op : BinOp) (x y : Int) : Option Int :=
  match op with
  | .add => some (x + y)
  | .sub => some (x - y)
  | .mul => some (x * y)
  | .div => some (x.tdiv y)
  | .mod => some (x.tmod y)
  | _ => none

namespace Target

open Number

variable {t : Target} {type : IntType} {op : BinOp} {x y n : Int}

/-- The operator does not overflow on operands of the type. -/
def Fits (t : Target) (type : IntType) (op : BinOp) (x y : Int) : Prop :=
  ∀ n ∈ op.unbounded? x y, t.InRange type n

instance (t : Target) (type : IntType) (op : BinOp) (x y : Int) : Decidable (t.Fits type op x y) :=
  match h : op.unbounded? x y with
  | none => .isTrue (by simp [Fits, h])
  | some n => decidable_of_iff (t.InRange type n) (by simp [Fits, h])

/-- Bits of a number of the type below its sign. -/
def payloadBits (t : Target) (type : IntType) : Nat :=
  if type.signed then t.intBits type.rank - 1 else t.intBits type.rank

/-- On a two's-complement target the range of a type is given by its payload and its sign. -/
theorem inRange_iff (htwos : t.complement = .twos) :
    t.InRange type n ↔ payload n < 2 ^ t.payloadBits type ∧ (type.signed = false → 0 ≤ n) := by
  rw [payload_lt_iff]
  cases hsigned : type.signed with
  | true =>
    simp only [InRange, minInt, maxInt, payloadBits, hsigned, htwos, ↓reduceIte, reduceCtorEq, false_imp_iff, and_true]
    push_cast
    omega
  | false =>
    rw [inRange_unsigned hsigned]
    simp only [payloadBits, hsigned, Bool.false_eq_true, ↓reduceIte, true_imp_iff]
    omega

theorem nonneg_of_inRange (hunsigned : type.signed = false) (hn : t.InRange type n) : 0 ≤ n :=
  ((inRange_unsigned hunsigned n).mp hn).1

/-- A working word holds every value of a type. -/
theorem signedWord_of_inRange (hn : t.InRange type n) : signedWord workingBits n = n := by
  have hlt := natAbs_lt_of_inRange hn
  have hle := t.two_pow_intBits_le type.rank
  have hwork : ((2 ^ workingBits : Nat) : Int) = 2 ^ 64 * 2 ^ 64 := by decide
  unfold signedWord
  apply bmod_eq_of_le <;> rw [hwork] <;> omega

/-- A result in range is not wrapped. -/
theorem reduce_signedWord (hn : t.InRange type n) : t.reduce type (signedWord workingBits n) = n := by
  rw [signedWord_of_inRange hn, t.reduce_of_inRange type hn]

section Operators

variable (htwos : t.complement = .twos) (hx : t.InRange type x) (hy : t.InRange type y)
include htwos hx

/-- A shift to the right drops bits and keeps the sign. -/
theorem inRange_shiftRight (count : Nat) : t.InRange type (x / 2 ^ count) := by
  rw [inRange_iff htwos, payload_lt_iff] at hx ⊢
  have hpos : (0 : Int) < 2 ^ count := Int.pow_pos (by decide)
  obtain ⟨⟨hlow, hhigh⟩, hsign⟩ := hx
  refine ⟨?_, fun hunsigned => Int.ediv_nonneg (hsign hunsigned) (Int.le_of_lt hpos)⟩
  rcases Int.lt_or_le x 0 with hneg | hnonneg
  · have hge : x ≤ x / 2 ^ count := by
      apply Int.le_ediv_of_mul_le hpos
      simpa using Int.mul_le_mul_of_nonpos_left (Int.le_of_lt hneg) (show 1 ≤ 2 ^ count from hpos)
    have hlt := Int.ediv_neg_of_neg_of_pos hneg hpos
    omega
  · have hle := ediv_le_self (2 ^ count) hnonneg
    have hge := Int.ediv_nonneg hnonneg (Int.le_of_lt hpos)
    omega

include hy

/-- An operator on the bits goes beyond a width no more than its operands, and keeps natural numbers. -/
theorem inRange_bitwise {f : Int → Int → Int}
    (hpayload : ∀ {bound : Nat}, payload x < 2 ^ bound → payload y < 2 ^ bound → payload (f x y) < 2 ^ bound)
    (hsign : ∀ m k : Nat, 0 ≤ f m k) : t.InRange type (f x y) := by
  rw [inRange_iff htwos] at hx hy ⊢
  refine ⟨hpayload hx.1 hy.1, fun hunsigned => ?_⟩
  obtain ⟨m, rfl⟩ := eq_ofNat_of_zero_le (hx.2 hunsigned)
  obtain ⟨k, rfl⟩ := eq_ofNat_of_zero_le (hy.2 hunsigned)
  exact hsign m k

theorem inRange_bitAnd : t.InRange type (bitAnd x y) :=
  inRange_bitwise htwos hx hy payload_bitAnd_lt fun _ _ => natCast_nonneg _

theorem inRange_bitOr : t.InRange type (bitOr x y) :=
  inRange_bitwise htwos hx hy payload_bitOr_lt fun _ _ => natCast_nonneg _

theorem inRange_bitXor : t.InRange type (bitXor x y) :=
  inRange_bitwise htwos hx hy payload_bitXor_lt fun _ _ => natCast_nonneg _

end Operators

end Target

end CoreC
