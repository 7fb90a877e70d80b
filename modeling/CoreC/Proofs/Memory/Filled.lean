import CoreC.Proofs.Domain.Productive
import CoreC.Proofs.Memory.Access
import CoreC.Proofs.Value.Operation

/-! # Memory is filled

A cell is never without contents: a fresh one holds the mark of a cell that was never
written, and what is written is never an empty set. So reading and converting never give
an empty set either.
-/

namespace CoreC

variable {ι φ : Type}

open Domain.Productive Domain List

variable {v : Value ι φ} {out : ValueSet ι φ}

namespace ValueSet

/-- Some value is possible. -/
def HasMember (s : ValueSet ι φ) : Prop := s.items ≠ []

theorem hasMember_singleton (v : Value ι φ) : (singleton v).HasMember := cons_ne_nil _ _

variable [DecidableEq ι] [BEq φ]

theorem hasMember_insert (s : ValueSet ι φ) (v : Value ι φ) : (s.insert v).HasMember := by
  unfold insert
  split
  next hcontains =>
    intro hnil
    simp [hnil] at hcontains
  next => simp [HasMember]

variable {s : ValueSet ι φ}

theorem HasMember.insertAll (hs : s.HasMember) (values : List (Value ι φ)) :
    (s.insertAll values).HasMember := by
  induction values generalizing s with
  | nil => exact hs
  | cons v rest ih => exact ih (hasMember_insert s v)

theorem hasMember_insertAll (s : ValueSet ι φ) {values : List (Value ι φ)} (hvalues : values ≠ []) :
    (s.insertAll values).HasMember := by
  cases values with
  | nil => exact absurd rfl hvalues
  | cons v rest => exact (hasMember_insert s v).insertAll rest

theorem hasMember_ofList {values : List (Value ι φ)} (hvalues : values ≠ []) :
    (ofList values).HasMember := hasMember_insertAll _ hvalues

theorem HasMember.map (hs : s.HasMember) (f : Value ι φ → Value ι φ) :
    (ofList (s.items.map f)).HasMember := hasMember_ofList (by simpa [HasMember] using hs)

theorem HasMember.union {t : ValueSet ι φ} (ht : t.HasMember) (s : ValueSet ι φ) :
    (s.union t).HasMember := hasMember_insertAll s ht

/-- A union over some items has a member if what each item gives has one. -/
theorem hasMember_foldlM {α : Type} {f : α → Except Fault (ValueSet ι φ)} {items : List α}
    {start : ValueSet ι φ} (hitems : items ≠ [] ∨ start.HasMember)
    (hf : ∀ a ∈ items, ∀ values, f a = .ok values → values.HasMember)
    (hout : items.foldlM (fun values a => (f a).map values.union) start = .ok out) :
    out.HasMember := by
  refine foldlM_ok_induction hitems (fun values a ha united hunited => ?_) hout
  obtain ⟨added, hadded, rfl⟩ := exists_of_map_ok hunited
  exact (hf a ha added hadded).union values

theorem quota_ne_nil : Quota ι φ fun items => items ≠ [] where
  one _ := cons_ne_nil _ _
  of_length hlength hitems := ne_nil_of_length_pos (hlength ▸ length_pos_of_ne_nil hitems)
  flatMap := flatMap_ne_nil
  ofList := hasMember_ofList
  foldlM hitems := hasMember_foldlM (.inl hitems)

end ValueSet

namespace Value

open ValueSet

variable [Domain ι φ] {t : Target}

theorem yields_ne_nil [Productive ι φ] : Yields ι φ fun items => items ≠ [] :=
  ⟨arith_ne_nil, compare_ne_nil, unary_ne_nil, truth_ne_nil, cast_ne_nil, intOfFloat_ne_nil, floatArith_ne_nil,
    floatCompare_ne_nil, floatUnary_ne_nil, floatTruth_ne_nil⟩

variable [DecidableEq ι] [BEq φ] [Productive ι φ]

theorem hasMember_ofBytes? {scalar : Scalar} {bytes : BytePattern}
    (hout : ofBytes? t scalar bytes = some (.ok out)) : out.HasMember := by
  unfold ofBytes? at hout
  split at hout
  · cases hout
    exact hasMember_singleton _
  · cases scalar with
    | int type =>
      obtain ⟨results, hresults, rfl⟩ := exists_of_map_ok (Option.some.inj hout)
      exact hasMember_ofList (by simpa using ofBytes_ne_nil hresults)
    | float kind =>
      obtain ⟨results, hresults, rfl⟩ := exists_of_map_ok (Option.some.inj hout)
      exact hasMember_ofList (by simpa using floatOfBytes_ne_nil hresults)
    | pointer | function => cases hout

end Value

namespace Store

open ValueSet

/-- Every cell holds some value. -/
def Filled (s : Store ι φ) : Prop :=
  ∀ {key : Nat} {cell : Cell ι φ}, s.cells[key]? = some cell → cell.contents.HasMember

section Access

variable [Domain ι φ] {scalar : Scalar} {s : Store ι φ} {out : ValueSet ι φ}

theorem cellBytes_ne_nil {cell : Cell ι φ} (hcell : cell.contents.HasMember) {start length : Nat}
    {pieces : List BytePattern} (hpieces : s.cellBytes cell start length = .ok pieces) :
    pieces ≠ [] := by
  obtain ⟨patterns, hpatterns, hpieces⟩ := exists_of_bind_ok hpieces
  cases hpieces
  have hsome := ne_nil_of_mapM_ok hcell hpatterns
  exact eraseDups_ne_nil (by simpa using hsome)

variable [DecidableEq ι] [BEq φ]

theorem hasMember_decode [Productive ι φ] {bytes : BytePattern}
    (hout : s.decode scalar bytes = .ok out) : out.HasMember := by
  unfold decode at hout
  split at hout
  next result hresult =>
    subst hout
    exact Value.hasMember_ofBytes? hresult
  next =>
    obtain ⟨numbers, hnumbers, hlist⟩ := exists_of_bind_ok hout
    cases hlist
    exact hasMember_ofList (by simpa using BytePattern.enumerate_ne_nil hnumbers)
  next => cases hout

theorem Filled.read [Productive ι φ] (hs : s.Filled) {address : Address}
    (hout : s.read address scalar = .ok out) : out.HasMember := by
  obtain ⟨place, hplace, hout⟩ := exists_of_bind_ok hout
  split at hout
  · cases hout
    exact (hs (getElem?_of_locate hplace)).map _
  · obtain ⟨patterns, hpatterns, hout⟩ := exists_of_bind_ok hout
    have hsome : patterns ≠ [] := by
      refine collectBytes_induction (P := (· ≠ [])) (fun hcell hpieces hread => ?_)
        (cons_ne_nil _ _) hpatterns
      exact flatMap_ne_nil hread fun _ _ => by simpa using cellBytes_ne_nil (hs hcell) hpieces
    exact hasMember_foldlM (.inl hsome) (fun bytes _ _ hvalues => hasMember_decode hvalues) hout

end Access

section Change

variable [DecidableEq ι] [BEq φ] {s : Store ι φ}

theorem Filled.commit (hs : s.Filled) {updates : List (Nat × ValueSet ι φ)}
    (hupdates : ∀ entry ∈ updates, entry.2.HasMember) : (s.commit updates).Filled := by
  intro key cell hcell
  exact contents_commit (P := fun _ => HasMember) hs (fun entry hentry _ _ => hupdates entry hentry) hcell

theorem hasMember_merge {weak : Bool} {old fresh : ValueSet ι φ} (hfresh : fresh.HasMember) :
    (merge weak old fresh).HasMember := by
  unfold merge
  split
  · exact hfresh.union old
  · exact hfresh

variable [Domain ι φ] [Productive ι φ]

theorem hasMember_patchCell {cell : Cell ι φ} (hcell : cell.contents.HasMember) {start : Nat}
    {patches : List BytePattern} (hpatches : patches ≠ [])
    (hout : s.patchCell cell start patches = .ok out) : out.HasMember := by
  refine hasMember_foldlM (.inl hcell) (fun old _ values hvalues => ?_) hout
  obtain ⟨bytes, -, hvalues⟩ := exists_of_bind_ok hvalues
  exact hasMember_foldlM (.inl hpatches) (fun _ _ _ hdecoded => hasMember_decode hdecoded) hvalues

theorem Filled.updates (hs : s.Filled) {address : Address} {values : ValueSet ι φ}
    (hvalues : values.HasMember) {scalar : Scalar} {forceWeak : Bool}
    {updates : List (Nat × ValueSet ι φ)}
    (hupdates : s.updates address values scalar forceWeak = .ok updates) :
    ∀ entry ∈ updates, entry.2.HasMember := by
  intro entry hentry
  obtain ⟨place, cell, fresh, -, -, hcell, hrenews, heq⟩ := exists_of_mem_updates hupdates hentry
  rw [heq]
  apply hasMember_merge
  cases hrenews with
  | whole => exact hvalues.map _
  | packed hpatches hfresh =>
    have hsome := ne_nil_of_mapM_ok hvalues hpatches
    exact hasMember_patchCell (hs hcell) (by simpa using hsome) hfresh

theorem hasMember_zeroUpdates {fuel key : Nat} {updates : List (Nat × ValueSet ι φ)}
    (hupdates : s.zeroUpdates fuel key = .ok updates) : ∀ entry ∈ updates, entry.2.HasMember := by
  intro entry hentry
  obtain ⟨-, cell, -, hcontents⟩ := (renewal_zeroUpdates hupdates).of_mem .refl entry hentry
  generalize entry.2 = contents at hcontents ⊢
  unfold zeroContents at hcontents
  split at hcontents
  · cases hcontents
    exact hasMember_singleton _
  · exact hasMember_decode hcontents

end Change

/-- The operation leaves filled memory filled. -/
abbrev Fills {α : Type} (act : StoreM ι φ α) : Prop := Keeps (fun s s' => s.Filled → s'.Filled) act

section Operations

variable [DecidableEq ι] [BEq φ] [Domain ι φ] [Productive ι φ]

/-- Operations leave filled memory filled if they write sets with members. -/
theorem filling : Allows (fun _ => True) (fun s s' : Store ι φ => s.Filled → s'.Filled)
    fun s _ values _ _ => s.Filled → values.HasMember where
  toEvolution := .implies _
  recorded _ _ _ _ := id
  freed _ := id
  summary _ _ := id
  object _ _ _ _ hs := contents_addObject (P := fun _ => HasMember) hs fun _ => hasMember_singleton _
  written hvalues hupdates hs := hs.commit (hs.updates (hvalues hs) hupdates)

end Operations

end Store

end CoreC
