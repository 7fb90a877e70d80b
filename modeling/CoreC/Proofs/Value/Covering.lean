import CoreC.Proofs.Domain.Representation
import CoreC.Proofs.Value.Membership

/-! # Abstract sets cover exact ones

A set of abstract integers covers a set of exact ones if each exact member has one that
stands for it. Operations on sets go through the members, so what they make of the two sets
is covered again, as long as they never fail on the abstract side.
-/

namespace CoreC

open Store Domain List

variable {ι φ : Type}

namespace Value

/-- An integer, or the mark of a cell never written. -/
def Integral : Value ι φ → Prop
  | .int .. | .uninitialized _ => True
  | _ => False

theorem Integral.isPlain {v : Value ι φ} (hv : v.Integral) : v.IsPlain := by
  cases v <;> first | exact hv.elim | trivial

theorem Integral.retag {v : Value ι φ} (hv : v.Integral) (scalar : Scalar) :
    (retag scalar v).Integral := by
  cases v with
  | int | uninitialized => trivial
  | float | pointer | function => exact hv.elim

/-- The abstract value stands for the exact one. -/
inductive Stands [Domain ι φ] [Abstraction ι φ] (t : Target) :
    Value ι φ → Value Int Double → Prop where
  | int {a : ι} {n : Int} {type : IntType} (hrepresents : Abstraction.Represents φ t type a n) :
      Stands t (.int a type) (.int n type)
  | uninitialized (scalar : Scalar) : Stands t (.uninitialized scalar) (.uninitialized scalar)

section Stands

variable [Domain ι φ] [Abstraction ι φ] {t : Target} {a : Value ι φ} {v : Value Int Double}

theorem Stands.integral (hstands : a.Stands t v) : v.Integral := by cases hstands <;> trivial

theorem Stands.isInitialized_eq (hstands : a.Stands t v) : a.isInitialized = v.isInitialized := by
  cases hstands <;> rfl

theorem Stands.retag (hstands : a.Stands t v) (scalar : Scalar) :
    (retag scalar a).Stands t (retag scalar v) := by
  cases hstands with
  | int hrepresents => exact .int hrepresents
  | uninitialized => exact .uninitialized scalar

end Stands

end Value

namespace ValueSet

/-- Every member is an integer or the mark of a cell never written. -/
def Integral (s : ValueSet ι φ) : Prop := ∀ v ∈ s.items, v.Integral

/-- Sets of integers that are taken for the same are the same. -/
theorem Integral.eq_of_same [DecidableEq ι] [BEq φ] {s t : ValueSet ι φ} (hs : s.Integral)
    (hsame : s.same t = true) : s = t := Plain.eq_of_same (fun v hv => (hs v hv).isPlain) hsame

variable [Domain ι φ] [Abstraction ι φ]

/-- The abstract set holds integers, and for each exact value one that stands for it. -/
structure Covers (t : Target) (s : ValueSet ι φ) (exact : ValueSet Int Double) : Prop where
  integral : s.Integral
  stands : ∀ v ∈ exact.items, ∃ a ∈ s.items, a.Stands t v

namespace Covers

variable {t : Target} {s fresh : ValueSet ι φ} {exact freshExact : ValueSet Int Double}

theorem exact_integral (hcovers : s.Covers t exact) : exact.Integral := by
  intro v hv
  obtain ⟨a, -, hstands⟩ := hcovers.stands v hv
  exact hstands.integral

theorem allUninitialized (hcovers : s.Covers t exact) (hall : s.allUninitialized = true) :
    exact.allUninitialized = true := by
  unfold ValueSet.allUninitialized at hall ⊢
  apply all_eq_true.mpr
  intro v hv
  obtain ⟨a, ha, hstands⟩ := hcovers.stands v hv
  rw [← hstands.isInitialized_eq]
  exact all_eq_true.mp hall a ha

theorem empty : (ValueSet.empty : ValueSet ι φ).Covers t .empty := by
  constructor <;> simp [Integral, ValueSet.empty]

theorem uninitialized (scalar : Scalar) :
    (singleton (.uninitialized scalar) : ValueSet ι φ).Covers t (singleton (.uninitialized scalar)) := by
  constructor
  · intro v hv
    rw [mem_singleton.mp hv]
    trivial
  · intro v hv
    rw [mem_singleton.mp hv]
    exact ⟨_, mem_singleton_self _, .uninitialized scalar⟩

variable [DecidableEq ι] [BEq φ]

theorem insertAll (hcovers : s.Covers t exact) {values : List (Value ι φ)}
    {known : List (Value Int Double)} (hvalues : ∀ a ∈ values, a.Integral)
    (hknown : ∀ v ∈ known, ∃ a ∈ values, a.Stands t v) :
    (s.insertAll values).Covers t (exact.insertAll known) := by
  refine ⟨forall_mem_insertAll hcovers.integral hvalues, ?_⟩
  intro v hv
  rcases of_mem_insertAll hv with hold | hnew
  · obtain ⟨a, ha, hstands⟩ := hcovers.stands v hold
    exact ⟨a, subset_insertAll s values ha, hstands⟩
  · obtain ⟨a, ha, hstands⟩ := hknown v hnew
    exact ⟨a, mem_insertAll ha (hvalues a ha).isPlain, hstands⟩

theorem ofList {values : List (Value ι φ)} {known : List (Value Int Double)}
    (hvalues : ∀ a ∈ values, a.Integral) (hknown : ∀ v ∈ known, ∃ a ∈ values, a.Stands t v) :
    (ValueSet.ofList values).Covers t (.ofList known) := empty.insertAll hvalues hknown

theorem retag (hcovers : s.Covers t exact) (scalar : Scalar) :
    (ValueSet.ofList (s.items.map (retag scalar))).Covers t
      (.ofList (exact.items.map (retag scalar))) := by
  apply ofList
  · intro w hw
    obtain ⟨a, ha, rfl⟩ := mem_map.mp hw
    exact (hcovers.integral a ha).retag scalar
  · intro w hw
    obtain ⟨v, hv, rfl⟩ := mem_map.mp hw
    obtain ⟨a, ha, hstands⟩ := hcovers.stands v hv
    exact ⟨_, mem_map_of_mem ha, hstands.retag scalar⟩

/-- Merging keeps the cover: an abstract cell that was never written covers only exact cells
that were never written either. -/
theorem merge (hcovers : s.Covers t exact) (hfresh : fresh.Covers t freshExact) (weak : Bool) :
    (Store.merge weak s fresh).Covers t (Store.merge weak exact freshExact) := by
  have hunion : (s.union fresh).Covers t (exact.union freshExact) := hcovers.insertAll hfresh.integral hfresh.stands
  unfold Store.merge
  cases weak with
  | false => simpa using hfresh
  | true =>
    by_cases hall : s.allUninitialized = true
    · simpa [hall, hcovers.allUninitialized hall] using hfresh
    · by_cases hallExact : exact.allUninitialized = true
      · -- The exact cell is overwritten, and the abstract one holds the new values as well.
        simp only [hall, hallExact, Bool.not_true, Bool.false_eq_true, and_false, ↓reduceIte,
          Bool.not_false, and_self]
        refine ⟨hunion.integral, ?_⟩
        intro v hv
        obtain ⟨a, ha, hstands⟩ := hfresh.stands v hv
        exact ⟨a, mem_insertAll ha (hfresh.integral a ha).isPlain, hstands⟩
      · simpa [hall, hallExact] using hunion

/-- Uniting what an operation gives for each of some items: it succeeds on all abstract items,
and on each exact item as on some abstract one. -/
theorem foldlM {α β : Type} (f : α → Except Fault (ValueSet ι φ))
    (g : β → Except Fault (ValueSet Int Double)) (items : List α) (known : List β)
    (hf : ∀ a ∈ items, ∃ given, f a = .ok given ∧ given.Integral)
    (hg : ∀ b ∈ known, ∃ a ∈ items, ∃ given givenExact, f a = .ok given ∧
      g b = .ok givenExact ∧ given.Covers t givenExact) :
    ∃ out outExact, items.foldlM (fun values a => (f a).map values.union) ValueSet.empty = .ok out ∧
      known.foldlM (fun values b => (g b).map values.union) ValueSet.empty = .ok outExact ∧
      out.Covers t outExact := by
  obtain ⟨out, hout⟩ := exists_foldlM_ok
    (fun a ha => (hf a ha).imp fun _ hgiven => hgiven.1) ValueSet.empty
  obtain ⟨outExact, houtExact⟩ : ∃ outExact,
      known.foldlM (fun values b => (g b).map values.union) ValueSet.empty = .ok outExact := by
    apply exists_foldlM_ok
    intro b hb
    obtain ⟨-, -, -, givenExact, -, hgivenExact, -⟩ := hg b hb
    exact ⟨givenExact, hgivenExact⟩
  refine ⟨out, outExact, hout, houtExact, forall_mem_foldlM (fun a ha given hgiven => ?_) hout, ?_⟩
  · obtain ⟨same, hsame, hintegral⟩ := hf a ha
    rw [hgiven] at hsame
    cases hsame
    exact hintegral
  · intro v hv
    rcases of_mem_foldlM houtExact hv with hnone | ⟨b, hb, givenExact, hgivenExact, hmem⟩
    · cases hnone
    · obtain ⟨a, ha, given, same, hgiven, hsame, hcovers⟩ := hg b hb
      rw [hgivenExact] at hsame
      cases hsame
      obtain ⟨w, hw, hstands⟩ := hcovers.stands v hmem
      exact ⟨w, mem_foldlM hout ha hgiven hw (hcovers.integral w hw).isPlain, hstands⟩

end Covers

end ValueSet

end CoreC
