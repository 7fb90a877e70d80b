import CoreC.Proofs.Memory.Filled

/-! # Members of value sets

A set of possible values is gathered from what an operation gives for each of some items. It
holds all plain values that are given, and nothing else. Floating numbers are left out, as a set
does not tell apart the two zeros.
-/

namespace CoreC

open List

variable {ι φ : Type}

/-- The value is not a floating number. -/
def Value.IsPlain : Value ι φ → Prop
  | .float .. => False
  | _ => True

section Same

variable [DecidableEq ι] [BEq φ]

/-- Plain values that a set takes for the same are the same. -/
theorem Value.eq_of_beq {v w : Value ι φ} (hv : v.IsPlain) (hsame : (v == w) = true) : v = w := by
  change v.same w = true at hsame
  cases v <;> cases w <;> simp_all [Value.same, Value.IsPlain]

end Same

variable {values : List (Value ι φ)} {s : ValueSet ι φ}

namespace ValueSet

/-- No member is a floating number. -/
def Plain (s : ValueSet ι φ) : Prop := ∀ v ∈ s.items, v.IsPlain

variable [DecidableEq ι] [BEq φ] {v : Value ι φ}

theorem subset_insertAll (s : ValueSet ι φ) (values : List (Value ι φ))
    (hv : v ∈ s.items) : v ∈ (s.insertAll values).items := by
  induction values generalizing s with
  | nil => exact hv
  | cons w rest ih =>
    apply ih
    unfold insert
    split
    · exact hv
    · exact mem_append_left _ hv

theorem mem_insertAll (hv : v ∈ values) (hplain : v.IsPlain) : v ∈ (s.insertAll values).items := by
  induction values generalizing s with
  | nil => cases hv
  | cons w rest ih =>
    rcases mem_cons.mp hv with rfl | hrest
    · refine subset_insertAll (s.insert v) rest ?_
      unfold insert
      split
      next hcontains =>
        obtain ⟨other, hother, hsame⟩ := contains_iff_exists_mem_beq.mp hcontains
        exact Value.eq_of_beq hplain hsame ▸ hother
      next => simp
    · exact ih hrest

theorem of_mem_insertAll (hv : v ∈ (s.insertAll values).items) : v ∈ s.items ∨ v ∈ values := by
  induction values generalizing s with
  | nil => exact .inl hv
  | cons w rest ih =>
    rcases ih hv with hinsert | hrest
    · unfold insert at hinsert
      split at hinsert
      · exact .inl hinsert
      · rcases mem_append.mp hinsert with hs | hlast
        · exact .inl hs
        · exact .inr (mem_singleton.mp hlast ▸ mem_cons_self)
    · exact .inr (mem_cons_of_mem w hrest)

variable {P : Value ι φ → Prop}

theorem forall_mem_insertAll (hs : ∀ v ∈ s.items, P v) (hvalues : ∀ v ∈ values, P v) :
    ∀ v ∈ (s.insertAll values).items, P v :=
  fun v hv => (of_mem_insertAll hv).elim (hs v) (hvalues v)

theorem forall_mem_ofList (hvalues : ∀ v ∈ values, P v) :
    ∀ v ∈ (ofList values).items, P v := forall_mem_insertAll (forall_mem_nil _) hvalues

/-- Gathering the members anew gives the set again. -/
def Tidy (s : ValueSet ι φ) : Prop := ofList s.items = s

theorem Tidy.insertAll (hs : s.Tidy) (values : List (Value ι φ)) : (s.insertAll values).Tidy := by
  induction values generalizing s with
  | nil => exact hs
  | cons v rest ih =>
    refine ih ?_
    unfold insert
    split
    · exact hs
    next hnew =>
      have hlast : ofList (s.items ++ [v]) = (ofList s.items).insert v := foldl_append
      rw [Tidy, hlast, hs]
      exact if_neg hnew

/-! A union of what an operation gives for each of some items. -/

section Union

variable {α : Type} {f : α → Except Fault (ValueSet ι φ)} {items : List α} {start out : ValueSet ι φ}

theorem exists_foldlM_ok (hf : ∀ a ∈ items, ∃ given, f a = .ok given) (start : ValueSet ι φ) :
    ∃ out, items.foldlM (fun values a => (f a).map values.union) start = .ok out := by
  induction items generalizing start with
  | nil => exact ⟨start, rfl⟩
  | cons a rest ih =>
    obtain ⟨given, hgiven⟩ := hf a mem_cons_self
    obtain ⟨out, hout⟩ := ih (fun b hb => hf b (mem_cons_of_mem a hb)) (start.union given)
    refine ⟨out, ?_⟩
    rw [foldlM_cons, hgiven]
    exact hout

section

variable (hout : items.foldlM (fun values a => (f a).map values.union) start = .ok out)

include hout

theorem of_mem_foldlM (hv : v ∈ out.items) :
    v ∈ start.items ∨ ∃ a ∈ items, ∃ given, f a = .ok given ∧ v ∈ given.items := by
  induction items generalizing start with
  | nil =>
    cases hout
    exact .inl hv
  | cons a rest ih =>
    obtain ⟨middle, hmiddle, hrest⟩ := exists_of_bind_ok hout
    obtain ⟨given, hgiven, rfl⟩ := exists_of_map_ok hmiddle
    rcases ih hrest with hunion | ⟨b, hb, others, hothers, hmem⟩
    · rcases of_mem_insertAll hunion with hstart | hnew
      · exact .inl hstart
      · exact .inr ⟨a, mem_cons_self, given, hgiven, hnew⟩
    · exact .inr ⟨b, mem_cons_of_mem a hb, others, hothers, hmem⟩

theorem foldlM_induction {P : ValueSet ι φ → Prop} (hunion : ∀ s given, P s → P (s.union given))
    (hstart : P start) : P out := by
  induction items generalizing start with
  | nil =>
    cases hout
    exact hstart
  | cons a rest ih =>
    obtain ⟨middle, hmiddle, hrest⟩ := exists_of_bind_ok hout
    obtain ⟨given, -, rfl⟩ := exists_of_map_ok hmiddle
    exact ih hrest (hunion start given hstart)

theorem mem_foldlM_of_mem (hv : v ∈ start.items) : v ∈ out.items :=
  foldlM_induction hout (P := (v ∈ ·.items)) (fun s given => s.subset_insertAll given.items) hv

theorem mem_foldlM {a : α} (ha : a ∈ items) {given : ValueSet ι φ} (hgiven : f a = .ok given)
    (hv : v ∈ given.items) (hplain : v.IsPlain) : v ∈ out.items := by
  induction items generalizing start with
  | nil => cases ha
  | cons b rest ih =>
    obtain ⟨middle, hmiddle, hrest⟩ := exists_of_bind_ok hout
    rcases mem_cons.mp ha with rfl | hlater
    · obtain ⟨same, hsame, rfl⟩ := exists_of_map_ok hmiddle
      rw [hgiven] at hsame
      cases hsame
      exact mem_foldlM_of_mem hrest (mem_insertAll hv hplain)
    · exact ih hrest hlater

end

theorem forall_mem_foldlM (hf : ∀ a ∈ items, ∀ given, f a = .ok given → ∀ v ∈ given.items, P v)
    (hout : items.foldlM (fun values a => (f a).map values.union) .empty = .ok out) :
    ∀ v ∈ out.items, P v := by
  intro v hv
  rcases of_mem_foldlM hout hv with hnone | ⟨a, ha, given, hgiven, hmem⟩
  · cases hnone
  · exact hf a ha given hgiven v hmem

end Union

/-- Sets of plain values that are taken for the same are the same. -/
theorem Plain.eq_of_same {t : ValueSet ι φ} (hs : s.Plain) (hsame : s.same t = true) : s = t := by
  obtain ⟨items⟩ := s
  obtain ⟨others⟩ := t
  replace hsame : (items == others) = true := hsame
  congr
  induction items generalizing others with
  | nil => cases others <;> simp_all
  | cons v rest ih =>
    cases others with
    | nil => simp at hsame
    | cons w others =>
      rw [cons_beq_cons, Bool.and_eq_true] at hsame
      rw [Value.eq_of_beq (hs v mem_cons_self) hsame.1]
      congr
      exact ih (fun u hu => hs u (mem_cons_of_mem v hu)) others hsame.2

end ValueSet

end CoreC
