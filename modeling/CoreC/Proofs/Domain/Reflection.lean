import CoreC.Proofs.Domain.Polarity
import CoreC.Proofs.Domain.Wrapping

/-! # Signs of reflected values

On a two's-complement target the complement of a value is its mirror image in the range of the
type, and its negation is the value after that one; only the least value is its own negation. In
a signed type this turns signs around. In an unsigned type positive values stay positive, but
for the complement of the greatest, which is zero: the sign tables leave it out.
-/

namespace CoreC

namespace Target

open Number

variable {t : Target} {type : IntType} {x : Int}

section

variable (htwos : t.complement = .twos)

include htwos

/-- The range of a signed type ends one before the mirror image of its start; that of an unsigned
one starts at zero. -/
theorem mirror_cases (type : IntType) :
    type.signed = true ∧ t.minInt type < 0 ∧ t.maxInt type = -t.minInt type - 1 ∨
      type.signed = false ∧ t.minInt type = 0 ∧ 0 < t.maxInt type := by
  have hmax := t.maxInt_eq type
  have hhalf := t.two_pow_intBits type.rank
  have hpos := Nat.two_pow_pos (t.intBits type.rank - 1)
  rcases t.bounds_cases type with ⟨hsigned, hmin, hspan⟩ | ⟨hsigned, -, hspan, hmin⟩ | ⟨⟨-, hones⟩, -⟩
  · exact .inr ⟨hsigned, hmin, by omega⟩
  · exact .inl ⟨hsigned, by omega, by omega⟩
  · cases htwos.symm.trans hones

theorem span_dvd_mirror (type : IntType) : t.span type ∣ t.minInt type + t.maxInt type + 1 := by
  unfold span
  rcases mirror_cases htwos type with ⟨-, -, hmax⟩ | ⟨-, hmin, -⟩
  · exact ⟨0, by omega⟩
  · exact ⟨1, by omega⟩

theorem arithUnary_bitNot (hx : t.InRange type x) :
    t.arithUnary type .bitNot x = .ok (t.minInt type + t.maxInt type - x) := by
  have hmirror : t.InRange type (t.minInt type + t.maxInt type - x) := by
    unfold InRange at hx ⊢
    omega
  refine congrArg Except.ok (eq_of_emod_eq (t.inRange_reduce type _) hmirror ?_)
  rw [reduce_emod, bitNot]
  apply Int.modEq_iff_dvd.mpr
  convert span_dvd_mirror htwos type using 1
  omega

theorem arithUnary_neg (hx : t.InRange type x) : t.arithUnary type .neg x =
      .ok (if x = t.minInt type then x else t.minInt type + t.maxInt type + 1 - x) := by
  have hnext : t.InRange type (if x = t.minInt type then x else t.minInt type + t.maxInt type + 1 - x) := by
    unfold InRange at hx ⊢
    split <;> omega
  refine congrArg Except.ok (eq_of_emod_eq (t.inRange_reduce type _) hnext ?_)
  rw [reduce_emod, signedWord_emod fun hzeros => by simp [TwoZeros, htwos] at hzeros]
  apply Int.modEq_iff_dvd.mpr
  have hmirror := span_dvd_mirror htwos type
  split
  next hleast =>
    convert Int.dvd_sub hmirror (Int.dvd_refl (t.span type)) using 1
    rw [t.maxInt_eq type]
    omega
  next =>
    convert hmirror using 1
    omega

end

/-- The values whose sign the tables do not tell: the least of a signed type, which is its own
negation, and the greatest of an unsigned one, the complement of which is zero. -/
def Extreme (t : Target) (type : IntType) (op : UnOp) (x : Int) : Prop :=
  op = .neg ∧ type.signed = true ∧ x = t.minInt type ∨
    op = .bitNot ∧ type.signed = false ∧ x = t.maxInt type

instance (t : Target) (type : IntType) (op : UnOp) (x : Int) : Decidable (t.Extreme type op x) :=
  inferInstanceAs (Decidable (_ ∨ _))

end Target

namespace Sign

variable {t : Target} {type : IntType} {op : UnOp} {x n : Int} {a : Sign} {signs : List Polarity}

theorem exists_ofPolarities_iff :
    (∃ c ∈ ofPolarities signs, c.Represents n) ↔ Polarity.ofInt n ∈ signs := by
  refine ⟨fun ⟨c, hc, hn⟩ => ?_, exists_ofPolarities⟩
  rw [represents_iff] at hn
  unfold ofPolarities at hc
  split at hc
  next hall => cases Polarity.ofInt n <;> simp [hall]
  next =>
    cases c with
    | top => simp at hc
    | zero | plus | minus =>
      rw [List.mem_singleton.mp hn]
      simpa using hc

theorem polarities_ofInt (x : Int) : (ofInt x).polarities = [Polarity.ofInt x] := by
  unfold ofInt Polarity.ofInt
  split
  · rfl
  · split <;> rfl

theorem ofInt_ne_top (x : Int) : ofInt x ≠ .top := by
  unfold ofInt
  repeat' split
  all_goals decide

section Unary

variable (hop : op = .neg ∨ op = .plus ∨ op = .bitNot)
include hop

/-- An operator on an unknown sign allows for every value of the type. -/
theorem exists_unary_top (hn : t.InRange type n) :
    ∃ results : List Sign, Domain.unary Sign t type op .top = .ok results ∧ ∃ c ∈ results, c.Represents n := by
  have hsign (hunsigned : type.signed = false) := Target.nonneg_of_inRange hunsigned hn
  rcases hop with rfl | rfl | rfl <;> refine ⟨_, rfl, ?_⟩ <;> rw [gather, exists_ofPolarities_iff] <;>
    cases hsigned : type.signed <;> simp [polarities, Polarity.all, Polarity.flip, Polarity.abs] <;> grind

/-- An operator on the sign of a value allows for the exact result, but not at an end of the
range. -/
theorem unary_ofInt_iff (htwos : t.complement = .twos) (hx : t.InRange type x) :
    ∃ n results, t.arithUnary type op x = .ok n ∧ Domain.unary Sign t type op (ofInt x) = .ok results ∧
      ((∃ c ∈ results, c.Represents n) ↔ ¬t.Extreme type op x) := by
  obtain ⟨hlow, hhigh⟩ := id hx
  have hrange := Target.mirror_cases htwos type
  rcases hop with rfl | rfl | rfl
  · refine ⟨_, _, Target.arithUnary_neg htwos hx, rfl, ?_⟩
    rw [gather, exists_ofPolarities_iff, polarities_ofInt]
    rcases hrange with ⟨hsigned, hmin, hmax⟩ | ⟨hsigned, hmin, hmax⟩ <;>
      cases hsign : Polarity.ofInt x <;>
      simp only [Polarity.ofInt_eq_zero, Polarity.ofInt_eq_pos, Polarity.ofInt_eq_neg] at hsign <;>
      simp [hsigned, Target.Extreme, Polarity.flip, Polarity.abs] <;> split <;> omega
  · refine ⟨x, _, rfl, rfl, ?_⟩
    rw [gather, exists_ofPolarities_iff, polarities_ofInt]
    rcases hrange with ⟨hsigned, hmin, hmax⟩ | ⟨hsigned, hmin, hmax⟩
    · simp [hsigned, Target.Extreme]
    · simp [hsigned, Target.Extreme, Polarity.abs_ofInt (hmin ▸ hlow)]
  · refine ⟨_, _, Target.arithUnary_bitNot htwos hx, rfl, ?_⟩
    rw [gather, exists_ofPolarities_iff, polarities_ofInt]
    rcases hrange with ⟨hsigned, hmin, hmax⟩ | ⟨hsigned, hmin, hmax⟩ <;>
      cases hsign : Polarity.ofInt x <;>
      simp only [Polarity.ofInt_eq_zero, Polarity.ofInt_eq_pos, Polarity.ofInt_eq_neg] at hsign <;>
      simp [hsigned, Target.Extreme, Polarity.abs] <;> omega

/-- **Signs of unary operators.** On a two's-complement target an arithmetic operator on a sign
allows for what the exact operator makes of any value with that sign, except at one end of the
range: there the sign has to be unknown. -/
theorem unary_covers_iff (htwos : t.complement = .twos) (hx : t.InRange type x) (ha : a.Represents x) :
    ∃ n results, t.arithUnary type op x = .ok n ∧ Domain.unary Sign t type op a = .ok results ∧
      ((∃ c ∈ results, c.Represents n) ↔ a = .top ∨ ¬t.Extreme type op x) := by
  obtain ⟨n, results, hn, hresults, hcovers⟩ := unary_ofInt_iff hop htwos hx
  rcases ha with rfl | rfl
  · obtain ⟨all, hall, hcovered⟩ := exists_unary_top hop (Target.inRange_arithUnary hx hn)
    exact ⟨n, all, hn, hall, iff_of_true hcovered (.inl rfl)⟩
  · refine ⟨n, results, hn, hresults, hcovers.trans ?_⟩
    rw [or_iff_right (ofInt_ne_top x)]

end Unary

/-- The complement of a byte below the greatest is covered. -/
theorem complement_covered :
    Target.gcc.InRange .unsignedChar 254 ∧ ¬Target.gcc.Extreme .unsignedChar .bitNot 254 ∧
      Target.gcc.arithUnary .unsignedChar .bitNot 254 = .ok 1 ∧
      ∃ c ∈ [plus], c.Represents 1 := by
  have hrange : Target.gcc.InRange .unsignedChar 254 := by decide
  have hmiddle : ¬Target.gcc.Extreme .unsignedChar .bitNot 254 := by decide
  obtain ⟨n, results, hn, hresults, hcovers⟩ :=
    unary_covers_iff (a := .plus) (.inr (.inr (Eq.refl UnOp.bitNot))) rfl hrange (by decide)
  cases hn
  cases hresults
  exact ⟨hrange, hmiddle, rfl, hcovers.mpr (.inr hmiddle)⟩

/-- The complement of the greatest byte is zero, and the sign table has only plus for it. -/
theorem greatestByte_uncovered : Target.gcc.InRange .unsignedChar 255 ∧ plus.Represents 255 ∧
      Target.gcc.arithUnary .unsignedChar .bitNot 255 = .ok 0 ∧
      Domain.unary Sign .gcc .unsignedChar .bitNot plus = .ok [plus] ∧ ¬plus.Represents 0 := by
  decide

end Sign

end CoreC
