import CoreC.Domain.Bounded
import CoreC.Domain.Exact
import CoreC.Memory.Object
import CoreC.Proofs.Effect

/-! # Operations have outcomes

An operation of a domain that succeeds has at least one outcome, so a value set that was
computed from others that are not empty is not empty either.
-/

namespace CoreC

open Domain List

variable {a b : Sign} {op : BinOp} {signed : Bool} {signs : List Polarity}

/-- No operation of the domain succeeds without an outcome. -/
class Domain.Productive (ι φ : Type) [Domain ι φ] : Prop where
  arith_ne_nil : ∀ {t : Target} {type : IntType} {op : BinOp} {a b : ι} {results : List ι},
    arith φ t type op a b = .ok results → results ≠ []
  compare_ne_nil : ∀ (op : BinOp) (a b : ι), compare φ op a b ≠ []
  unary_ne_nil : ∀ {t : Target} {type : IntType} {op : UnOp} {a : ι} {results : List ι},
    unary φ t type op a = .ok results → results ≠ []
  truth_ne_nil : ∀ a : ι, truth φ a ≠ []
  cast_ne_nil : ∀ (t : Target) (source wanted : IntType) (a : ι), cast φ t source wanted a ≠ []
  ofBytes_ne_nil : ∀ {t : Target} {type : IntType} {bytes : BytePattern} {results : List ι},
    ofBytes φ t type bytes = .ok results → results ≠ []
  intOfFloat_ne_nil : ∀ {t : Target} {type : IntType} {x : φ} {results : List ι},
    intOfFloat t type x = .ok results → results ≠ []
  floatArith_ne_nil : ∀ {kind : FloatKind} {op : BinOp} {x y : φ} {results : List φ},
    floatArith ι kind op x y = .ok results → results ≠ []
  floatCompare_ne_nil : ∀ (op : BinOp) (x y : φ), floatCompare ι op x y ≠ []
  floatUnary_ne_nil : ∀ {op : UnOp} {x : φ} {results : List φ},
    floatUnary ι op x = .ok results → results ≠ []
  floatTruth_ne_nil : ∀ x : φ, floatTruth ι x ≠ []
  floatOfBytes_ne_nil : ∀ {t : Target} {kind : FloatKind} {bytes : BytePattern} {results : List φ},
    floatOfBytes ι t kind bytes = .ok results → results ≠ []

open Domain.Productive

theorem flatMap_ne_nil {α β : Type} {items : List α} {f : α → List β} (hitems : items ≠ [])
    (hf : ∀ a ∈ items, f a ≠ []) : items.flatMap f ≠ [] := by
  obtain ⟨a, ha⟩ := exists_mem_of_ne_nil items hitems
  intro hnil
  exact hf a ha (flatMap_eq_nil_iff.mp hnil a ha)

theorem eraseDups_ne_nil {α : Type} [BEq α] [LawfulBEq α] {items : List α} (hitems : items ≠ []) :
    items.eraseDups ≠ [] := by
  obtain ⟨a, ha⟩ := exists_mem_of_ne_nil items hitems
  exact ne_nil_of_mem (mem_eraseDups.mpr ha)

theorem BytePattern.enumerate_ne_nil {p : BytePattern} {limit : Nat} {numbers : List Nat}
    (hnumbers : p.enumerate limit = .ok numbers) : numbers ≠ [] := by
  unfold enumerate at hnumbers
  dsimp only at hnumbers
  repeat' split at hnumbers
  all_goals cases hnumbers
  simp [Nat.pow_eq_zero]

namespace Exact

instance : Productive Int Double where
  arith_ne_nil h := by
    obtain ⟨n, -, rfl⟩ := exists_of_map_ok h
    simp
  compare_ne_nil _ _ _ := cons_ne_nil _ _
  unary_ne_nil h := by
    obtain ⟨n, -, rfl⟩ := exists_of_map_ok h
    simp
  truth_ne_nil _ := cons_ne_nil _ _
  cast_ne_nil _ _ _ _ := cons_ne_nil _ _
  ofBytes_ne_nil h := by
    obtain ⟨patterns, hpatterns, hresults⟩ := exists_of_bind_ok h
    cases hresults
    have hne := BytePattern.enumerate_ne_nil hpatterns
    exact eraseDups_ne_nil (by simpa using hne)
  intOfFloat_ne_nil h := by
    change intOfFloat _ _ _ = _ at h
    unfold intOfFloat at h
    split at h <;> cases h
    simp
  floatArith_ne_nil {kind op x y results} h := by
    change floatArith _ _ _ _ = _ at h
    cases op <;> cases h <;> simp
  floatCompare_ne_nil _ _ _ := cons_ne_nil _ _
  floatUnary_ne_nil {op x results} h := by
    change floatUnary _ _ = _ at h
    cases op <;> cases h <;> simp
  floatTruth_ne_nil _ := cons_ne_nil _ _
  floatOfBytes_ne_nil h := by
    change floatOfBytes _ _ _ = _ at h
    unfold floatOfBytes at h
    split at h <;> cases h
    simp

end Exact

namespace Sign

theorem polarities_ne_nil (a : Sign) : a.polarities ≠ [] := by cases a <;> decide

theorem arith_polarity_ne_nil (op : BinOp) (a b : Polarity) : Polarity.arith op a b ≠ [] := by
  cases op <;> cases a <;> cases b <;> decide

theorem compare_polarity_ne_nil (op : BinOp) (a b : Polarity) : Polarity.compare op a b ≠ [] := by
  cases op <;> cases a <;> cases b <;> decide

theorem ofPolarities_ne_nil (hsigns : signs ≠ []) : ofPolarities signs ≠ [] := by
  obtain ⟨sign, hsign⟩ := exists_mem_of_ne_nil signs hsigns
  unfold ofPolarities
  split
  · exact cons_ne_nil _ _
  · cases sign <;> simp [hsign]

theorem gather_ne_nil (signed : Bool) (hsigns : signs ≠ []) : gather signed signs ≠ [] := by
  cases signed with
  | true => exact ofPolarities_ne_nil hsigns
  | false => exact ofPolarities_ne_nil (by simpa using hsigns)

theorem outcomes_ne_nil {results : List Bool} (hresults : results ≠ []) : outcomes results ≠ [] := by
  obtain ⟨b, hb⟩ := exists_mem_of_ne_nil results hresults
  exact ne_nil_of_mem (mem_filter.mpr ⟨by cases b <;> simp, by simpa using hb⟩)

variable {results : List Sign}

theorem arith_ne_nil (h : arith signed op a b = .ok results) : results ≠ [] := by
  unfold arith at h
  split at h
  · cases h
  next hnonzero =>
    cases h
    refine gather_ne_nil signed (flatMap_ne_nil (polarities_ne_nil a) fun left _ => ?_)
    refine flatMap_ne_nil ?_ fun right _ => arith_polarity_ne_nil op left right
    by_cases hdivides : op.divides = true
    · -- Of a divisor that is not the zero element some sign is left.
      cases b <;> simp_all [polarities, Polarity.all]
    · simpa [hdivides] using polarities_ne_nil b

theorem compare_ne_nil (op : BinOp) (a b : Sign) : compare op a b ≠ [] := by
  refine outcomes_ne_nil (flatMap_ne_nil (polarities_ne_nil a) fun left _ => ?_)
  exact flatMap_ne_nil (polarities_ne_nil b) fun right _ => compare_polarity_ne_nil op left right

theorem unary_ne_nil {op : UnOp} (h : unary signed op a = .ok results) : results ≠ [] := by
  cases op <;> cases h
  · exact gather_ne_nil signed (by simpa using polarities_ne_nil a)
  · exact gather_ne_nil signed (polarities_ne_nil a)
  · refine gather_ne_nil signed (flatMap_ne_nil (polarities_ne_nil a) fun sign _ => ?_)
    cases sign <;> decide

theorem truth_ne_nil (a : Sign) : truth a ≠ [] :=
  outcomes_ne_nil (by simpa using polarities_ne_nil a)

variable (t : Target)

theorem cast_ne_nil (source wanted : IntType) (a : Sign) : cast t source wanted a ≠ [] := by
  unfold cast
  split
  · exact cons_ne_nil _ _
  · refine ofPolarities_ne_nil (flatMap_ne_nil (polarities_ne_nil a) fun sign _ => ?_)
    repeat' split
    all_goals simp [Polarity.all]

theorem floatArith_ne_nil (h : floatArith op a b = .ok results) : results ≠ [] := by
  unfold floatArith at h
  split at h
  case h_4 =>
    split at h
    · cases h
      simp
    · exact arith_ne_nil h
  case h_5 => cases h
  all_goals exact arith_ne_nil h

theorem floatUnary_ne_nil {op : UnOp} (h : floatUnary op a = .ok results) : results ≠ [] := by
  unfold floatUnary at h
  split at h
  case h_3 => cases h
  all_goals exact unary_ne_nil h

theorem ofBytes_ne_nil (type : IntType) (bytes : BytePattern) : ofBytes t type bytes ≠ [] := by
  unfold ofBytes
  repeat' split
  all_goals simp

theorem intOfFloat_ne_nil (type : IntType) (a : Sign) : intOfFloat t type a ≠ [] := by
  refine eraseDups_ne_nil (flatMap_ne_nil ?_ fun cut _ => cast_ne_nil t _ type cut)
  cases a <;> simp

theorem floatOfBytes_ne_nil (kind : FloatKind) (bytes : BytePattern) :
    floatOfBytes t kind bytes ≠ [] := by
  unfold floatOfBytes
  split <;> simp

instance : Productive Sign Sign where
  arith_ne_nil h := arith_ne_nil h
  compare_ne_nil := compare_ne_nil
  unary_ne_nil h := unary_ne_nil h
  truth_ne_nil := truth_ne_nil
  cast_ne_nil := cast_ne_nil
  ofBytes_ne_nil h := by
    cases h
    exact ofBytes_ne_nil _ _ _
  intOfFloat_ne_nil h := by
    cases h
    exact intOfFloat_ne_nil _ _ _
  floatArith_ne_nil h := floatArith_ne_nil h
  floatCompare_ne_nil := compare_ne_nil
  floatUnary_ne_nil h := floatUnary_ne_nil h
  floatTruth_ne_nil := truth_ne_nil
  floatOfBytes_ne_nil h := by
    cases h
    exact floatOfBytes_ne_nil _ _ _

end Sign

namespace Bounded

variable {results : List Bounded} {type : IntType}

theorem arith_ne_nil {t : Target} {a b : Bounded} (h : arith t type op a b = .ok results) :
    results ≠ [] := by
  unfold arith at h
  split at h
  · obtain ⟨n, -, rfl⟩ := exists_of_map_ok h
    simp
  · split at h <;> cases h
    simp

theorem unary_ne_nil {t : Target} {op : UnOp} {a : Bounded} (h : unary t type op a = .ok results) :
    results ≠ [] := by
  cases a with
  | known x =>
    obtain ⟨n, -, rfl⟩ := exists_of_map_ok h
    simp
  | top =>
    cases h
    simp

theorem ofBytes_ne_nil (t : Target) (type : IntType) (bytes : BytePattern) :
    ofBytes t type bytes ≠ [] := by
  unfold ofBytes
  split <;> simp

instance : Productive Bounded Sign where
  arith_ne_nil h := arith_ne_nil h
  compare_ne_nil _ a b := by cases a <;> cases b <;> exact cons_ne_nil _ _
  unary_ne_nil h := unary_ne_nil h
  truth_ne_nil a := by cases a <;> exact cons_ne_nil _ _
  cast_ne_nil _ _ _ a := by cases a <;> exact cons_ne_nil _ _
  ofBytes_ne_nil h := by
    cases h
    exact ofBytes_ne_nil _ _ _
  intOfFloat_ne_nil {t type x results} h := by
    cases h
    split <;> simp
  floatArith_ne_nil h := Sign.floatArith_ne_nil h
  floatCompare_ne_nil := Sign.compare_ne_nil
  floatUnary_ne_nil h := Sign.floatUnary_ne_nil h
  floatTruth_ne_nil := Sign.truth_ne_nil
  floatOfBytes_ne_nil h := by
    cases h
    exact Sign.floatOfBytes_ne_nil _ _ _

end Bounded

end CoreC
