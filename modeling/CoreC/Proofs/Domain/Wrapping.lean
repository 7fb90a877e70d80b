import CoreC.Proofs.Domain.Overflow
import Mathlib.Data.Int.Bitwise
import Mathlib.Data.Int.ModEq

/-! # Operators wrap into their type

An operator on two values of a type gives the value that differs from the result on unbounded
integers by a multiple of the number of values. Results are first cut down to working words. The
cut cannot be seen: a type with as many values as patterns divides the number of words, and with
two zeros no result is too large for a word.
-/

namespace CoreC

open Int

namespace Number

theorem testBit_bitsOutside (m n i : Nat) : (bitsOutside m n).testBit i = (m.testBit i && !n.testBit i) := by
  rw [bitsOutside, Nat.testBit_xor, Nat.testBit_and]
  cases m.testBit i <;> cases n.testBit i <;> rfl

theorem testBit_bitAnd (a b : Int) (i : Nat) : (bitAnd a b).testBit i = (a.testBit i && b.testBit i) := by
  cases a <;> cases b <;> simp [bitAnd, testBit, testBit_bitsOutside, Bool.and_comm]

theorem testBit_bitOr (a b : Int) (i : Nat) : (bitOr a b).testBit i = (a.testBit i || b.testBit i) := by
  cases a <;> cases b <;> simp [bitOr, testBit, testBit_bitsOutside, Bool.or_comm]

theorem testBit_bitXor (a b : Int) (i : Nat) : (bitXor a b).testBit i = (a.testBit i ^^ b.testBit i) := by
  cases a <;> cases b <;> simp [bitXor, testBit]

/-- A number is given by the bits of its two's-complement expansion. -/
theorem eq_iff_testBit {a b : Int} : a = b ↔ ∀ i, a.testBit i = b.testBit i := by
  refine ⟨fun heq i => by rw [heq], fun hbits => ?_⟩
  -- far enough up, all bits of a number are those of its sign
  have hhigh {m i : Nat} (hle : m ≤ i) : m.testBit i = false :=
    Nat.testBit_eq_false_of_lt (Nat.lt_of_le_of_lt hle Nat.lt_two_pow_self)
  cases a with
  | ofNat m =>
    cases b with
    | ofNat n => exact congrArg ofNat (Nat.eq_of_testBit_eq hbits)
    | negSucc n =>
      have hbit := hbits (m + n)
      simp [testBit, hhigh] at hbit
  | negSucc m =>
    cases b with
    | ofNat n =>
      have hbit := hbits (m + n)
      simp [testBit, hhigh] at hbit
    | negSucc n =>
      apply congrArg negSucc
      apply Nat.eq_of_testBit_eq
      intro i
      exact Bool.not_inj (hbits i)

end Number

namespace BinOp

/-- The number is the result of the operator on unbounded integers: quotients are cut towards
zero, bitwise operators go through the bits of infinite two's-complement expansions, and a shift
to the right rounds down. -/
def Yields (op : BinOp) (a b n : Int) : Prop :=
  match op with
  | .add => n = a + b
  | .sub => n = a - b
  | .mul => n = a * b
  | .div => n = a.tdiv b
  | .mod => n = a.tmod b
  | .bitAnd => ∀ i, n.testBit i = (a.testBit i && b.testBit i)
  | .bitOr => ∀ i, n.testBit i = (a.testBit i || b.testBit i)
  | .bitXor => ∀ i, n.testBit i = (a.testBit i ^^ b.testBit i)
  | .shl => n = a * 2 ^ b.toNat
  | .shr => n * 2 ^ b.toNat ≤ a ∧ a < (n + 1) * 2 ^ b.toNat
  | .eq | .ne | .lt | .le | .gt | .ge => False

/-- Why the operator has no result with this right operand, on values of so many bits. -/
def refusal? (op : BinOp) (bits : Nat) (b : Int) : Option Fault :=
  match op with
  | .div | .mod => if b = 0 then some (.divisionByZero op) else none
  | .shl | .shr => if 0 ≤ b ∧ b < bits then none else some (.unsupported (.shiftCount b bits))
  | _ => none

/-- The result that `Yields` describes. -/
def outcome (op : BinOp) (a b : Int) : Int :=
  match op with
  | .add => a + b
  | .sub => a - b
  | .mul => a * b
  | .div => a.tdiv b
  | .mod => a.tmod b
  | .bitAnd => Number.bitAnd a b
  | .bitOr => Number.bitOr a b
  | .bitXor => Number.bitXor a b
  | .shl => a * 2 ^ b.toNat
  | .shr => a / 2 ^ b.toNat
  | .eq | .ne | .lt | .le | .gt | .ge => 0

theorem yields_iff {op : BinOp} (hop : op.isRelational = false) {a b n : Int} :
    op.Yields a b n ↔ n = op.outcome a b := by
  cases op with
  | add | sub | mul | div | mod | shl => exact Iff.rfl
  | bitAnd => simp only [Yields, outcome, Number.eq_iff_testBit, Number.testBit_bitAnd]
  | bitOr => simp only [Yields, outcome, Number.eq_iff_testBit, Number.testBit_bitOr]
  | bitXor => simp only [Yields, outcome, Number.eq_iff_testBit, Number.testBit_bitXor]
  | shr =>
    have hpos : (0 : Int) < 2 ^ b.toNat := Int.pow_pos (by decide)
    have hlow := Int.le_ediv_iff_mul_le (a := n) (b := a) hpos
    have hhigh := Int.ediv_lt_iff_lt_mul (a := a) (b := n + 1) hpos
    simp only [Yields, outcome]
    omega
  | eq | ne | lt | le | gt | ge => cases hop

end BinOp

namespace Target

open Number

variable {t : Target} {type : IntType} {op : BinOp} {a b n : Int}

theorem arith_eq (hop : op.isRelational = false) (a b : Int) : t.arith type op a b =
      match op.refusal? (t.intBits type.rank) b with
      | some fault => .error fault
      | none => .ok (t.reduce type (signedWord workingBits (op.outcome a b))) := by
  cases op with
  | add | sub | mul | bitAnd | bitOr | bitXor => rfl
  | div | mod =>
    simp only [arith, BinOp.refusal?]
    split <;> rfl
  | shl | shr =>
    simp only [arith, BinOp.refusal?]
    by_cases hcount : 0 ≤ b ∧ b < t.intBits type.rank
    · rw [if_pos hcount, if_neg (by omega)]
      rfl
    · rw [if_neg hcount, if_pos (by omega)]
  | eq | ne | lt | le | gt | ge => cases hop

/-- With two zeros a value has a bit less than its pattern. -/
theorem natAbs_lt_of_twoZeros (hzeros : t.TwoZeros type) (hn : t.InRange type n) : n.natAbs < 2 ^ 63 := by
  have hhalf := t.two_pow_intBits type.rank
  have hle := t.two_pow_intBits_le type.rank
  have hmax := t.maxInt_eq type
  obtain ⟨hlow, hhigh⟩ := hn
  rcases t.bounds_cases type with ⟨hsigned, -⟩ | ⟨-, htwos, -⟩ | ⟨-, hspan, hmin⟩
  · exact absurd hzeros.1 (by simp [hsigned])
  · exact absurd hzeros.2 (by simp [htwos])
  · omega

/-- No operator takes numbers of 63 bits beyond a working word. -/
theorem natAbs_outcome_lt (ha : a.natAbs < 2 ^ 63) (hb : b.natAbs < 2 ^ 63)
    (hcount : op.refusal? (t.intBits type.rank) b = none) : (op.outcome a b).natAbs < 2 ^ 127 := by
  have hpayload {c} (hc : c.natAbs < 2 ^ 63) : payload c < 2 ^ 63 := by
    rw [payload_lt_iff]
    omega
  have hsmall {c} (hc : payload c < 2 ^ 63) : c.natAbs < 2 ^ 127 := by
    rw [payload_lt_iff] at hc
    omega
  have hproduct {x y} (hx : x < 2 ^ 63) (hy : y ≤ 2 ^ 63) : x * y < 2 ^ 127 :=
    Nat.lt_of_le_of_lt (Nat.mul_le_mul (Nat.le_of_lt hx) hy) (by decide)
  cases op with
  | add | sub => simp only [BinOp.outcome]; omega
  | mul =>
    rw [BinOp.outcome, natAbs_mul]
    exact hproduct ha (Nat.le_of_lt hb)
  | div =>
    have hle := Nat.div_le_self a.natAbs b.natAbs
    rw [BinOp.outcome, natAbs_tdiv]
    exact Nat.lt_of_le_of_lt hle (by omega)
  | mod =>
    have hle := Nat.mod_le a.natAbs b.natAbs
    rw [BinOp.outcome, natAbs_tmod]
    omega
  | bitAnd => exact hsmall (payload_bitAnd_lt (hpayload ha) (hpayload hb))
  | bitOr => exact hsmall (payload_bitOr_lt (hpayload ha) (hpayload hb))
  | bitXor => exact hsmall (payload_bitXor_lt (hpayload ha) (hpayload hb))
  | shl =>
    have hbits : b.toNat ≤ 63 := by
      have hwidth := t.intWidth_le type.rank
      rw [BinOp.refusal?] at hcount
      split at hcount
      next hinside =>
        unfold intBits at hinside
        omega
      next => cases hcount
    rw [BinOp.outcome, natAbs_mul, natAbs_pow]
    exact hproduct ha (Nat.pow_le_pow_right (by decide) hbits)
  | shr =>
    have hle := natAbs_ediv_le_natAbs a (2 ^ b.toNat)
    rw [BinOp.outcome]
    omega
  | eq | ne | lt | le | gt | ge => simp [BinOp.outcome]

/-- Cutting a number down to a working word changes it by a multiple of the number of values, or
not at all. -/
theorem signedWord_emod (hfits : t.TwoZeros type → n.natAbs < 2 ^ 127) :
    signedWord workingBits n % t.span type = n % t.span type := by
  have hwork : (2 ^ workingBits : Nat) = 2 * 2 ^ 127 := by decide
  unfold signedWord
  by_cases hzeros : t.TwoZeros type
  · have hlt := hfits hzeros
    rw [bmod_eq_of_le (by omega) (by omega)]
  · have hle : t.intBits type.rank ≤ workingBits := by
      have hwidth := t.intWidth_le type.rank
      unfold intBits workingBits
      omega
    have hdvd : t.span type ∣ ((2 ^ workingBits : Nat) : Int) := by
      rw [span_of_not_twoZeros hzeros]
      exact natCast_dvd_natCast.mpr (Nat.pow_dvd_pow 2 hle)
    rw [← emod_emod_of_dvd _ hdvd, bmod_emod, emod_emod_of_dvd _ hdvd]

/-- **Operators wrap.** On every target an operator that is not a comparison refuses two values of
a type exactly if it divides by zero or shifts by fewer than zero or by all the bits of the type.
Otherwise the operator has one result on unbounded integers, and gives the one value of the type
that is congruent to it modulo the number of values. -/
theorem arith_wraps (hop : op.isRelational = false) (ha : t.InRange type a) (hb : t.InRange type b) :
    match op.refusal? (t.intBits type.rank) b with
    | some fault => t.arith type op a b = .error fault
    | none => ∃ n r, (∀ m, op.Yields a b m ↔ m = n) ∧ t.arith type op a b = .ok r ∧
        ∀ other, t.InRange type other ∧ other ≡ n [ZMOD t.span type] ↔ other = r := by
  have harith : t.arith type op a b = _ := t.arith_eq hop a b
  split
  next fault hfault => rw [harith, hfault]
  next hnone =>
    rw [hnone] at harith
    have hresult : t.reduce type (signedWord workingBits (op.outcome a b)) ≡ op.outcome a b
        [ZMOD t.span type] := by
      unfold ModEq
      rw [reduce_emod, signedWord_emod]
      intro hzeros
      exact natAbs_outcome_lt (natAbs_lt_of_twoZeros hzeros ha) (natAbs_lt_of_twoZeros hzeros hb) hnone
    refine ⟨_, _, fun m => BinOp.yields_iff hop, harith, fun other => ⟨?_, ?_⟩⟩
    · rintro ⟨hother, hcongruent⟩
      exact eq_of_emod_eq hother (t.inRange_reduce type _) (hcongruent.trans hresult.symm)
    · rintro rfl
      exact ⟨t.inRange_reduce type _, hresult⟩

/-- The square of the greatest `unsigned long long` is too large for a working word, and its
residue is one. -/
theorem greatestSquare_wraps : packed.InRange ⟨.longLong, false⟩ (2 ^ 64 - 1) ∧
      packed.arith ⟨.longLong, false⟩ .mul (2 ^ 64 - 1) (2 ^ 64 - 1) = .ok 1 := by
  have hgreatest : packed.InRange ⟨.longLong, false⟩ (2 ^ 64 - 1) := by decide
  obtain ⟨n, r, hyields, hok, hunique⟩ := arith_wraps (show BinOp.mul.isRelational = false from rfl) hgreatest hgreatest
  have hproduct : (2 ^ 64 - 1) * (2 ^ 64 - 1) = n := (hyields _).mp rfl
  have hone : 1 = r := (hunique 1).mp ⟨by decide, by rw [← hproduct]; decide⟩
  exact ⟨hgreatest, hone ▸ hok⟩

end Target

end CoreC
