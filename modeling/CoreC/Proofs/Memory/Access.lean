import CoreC.Proofs.Memory.Chain

/-! # What accesses touch

Reading, writing and clearing go from cell to cell along the links. Said once for each: which cells
a change is made to, and what becomes of them. A write replaces or merges into the contents of a
cell, as a whole or with some of its bytes packed anew.
-/

namespace CoreC.Store

open List

variable {start fuel remaining : Nat} {patterns out : List BytePattern}
variable {ι φ : Type} {s : Store ι φ} {key : Nat} {cell : Cell ι φ}

theorem getElem?_of_cell (hcell : s.cell key = .ok cell) : s.cells[key]? = some cell := by
  unfold Store.cell at hcell
  split at hcell <;> cases hcell
  assumption

variable {address : Address}

theorem getElem?_of_locate {place : Place ι φ} (hplace : s.locate address = .ok place) :
    s.cells[place.key]? = some place.cell := by
  obtain ⟨-, extent, -, -, -, hentry, -⟩ := locate_eq_ok hplace
  exact getElem?_of_getEntryLE? hentry

/-- The links lead from one key to another. -/
inductive Reaches (s : Store ι φ) (start : Nat) : Nat → Prop where
  | refl : Reaches s start start
  | next {key : Nat} {cell : Cell ι φ} (hreaches : Reaches s start key) (hkey : key ≠ noCell)
      (hcell : s.cells[key]? = some cell) : Reaches s start cell.succ

variable {cells : List (Nat × Cell ι φ)}

/-- Where the links lead is on the chain. -/
theorem Chain.mem_of_reaches (hchain : s.Chain start cells) (hreaches : s.Reaches start key)
    (hkey : key ≠ noCell) (hcell : s.cells[key]? = some cell) : (key, cell) ∈ cells := by
  have hrest : ∃ rest, s.Chain key rest ∧ ∀ entry ∈ rest, entry ∈ cells := by
    clear hkey hcell
    induction hreaches with
    | refl => exact ⟨cells, hchain, fun _ => id⟩
    | next _ hkey hcell ih =>
      obtain ⟨rest, hrest, hmem⟩ := ih
      cases hrest with
      | nil => exact absurd rfl hkey
      | cons _ hfound hrest =>
        rw [hcell] at hfound
        cases hfound
        exact ⟨_, hrest, fun entry hentry => hmem entry (mem_cons_of_mem _ hentry)⟩
  obtain ⟨rest, hrest, hmem⟩ := hrest
  cases hrest with
  | nil => exact absurd rfl hkey
  | cons _ hfound _ =>
    rw [hcell] at hfound
    cases hfound
    exact hmem _ mem_cons_self

section Contents

variable {P : Scalar → ValueSet ι φ → Prop}
  (hs : ∀ {key : Nat} {cell : Cell ι φ}, s.cells[key]? = some cell → P cell.scalar cell.contents)

include hs

/-- New contents for some cells leave a property of all contents if they have it. -/
theorem contents_commit [DecidableEq ι] [BEq φ] {updates : List (Nat × ValueSet ι φ)}
    (hupdates : ∀ entry ∈ updates, ∀ cell, s.cells[entry.1]? = some cell → P cell.scalar entry.2)
    (hcell : (s.commit updates).cells[key]? = some cell) : P cell.scalar cell.contents := by
  obtain ⟨old, hold, rfl⟩ := exists_of_getElem?_commit hcell
  refine settle_induction (fun entry hentry hkey => ?_) (hs hold)
  exact hupdates entry hentry old (hkey ▸ hold)

/-- A new object leaves it if uninitialized values have it. -/
theorem contents_addObject (hfresh : ∀ scalar, P scalar (.singleton (.uninitialized scalar))) {base : Base}
    {units : List StorageUnit} (hcell : (s.addObject base units).cells[key]? = some cell) :
    P cell.scalar cell.contents := by
  rcases cases_appendCells base units s.cells s.next 0 noCell hcell with ⟨hnew, -⟩ | ⟨old, hold, heq⟩
  · rw [hnew]
    exact hfresh _
  · have hheld := hs hold
    rw [heq]
    exact hheld

end Contents

/-- New contents for the cells along the links, each of them made from the cell. -/
inductive Renewal (s : Store ι φ) (R : Cell ι φ → ValueSet ι φ → Prop) :
    Nat → List (Nat × ValueSet ι φ) → Prop where
  | done {key : Nat} : Renewal s R key []
  | next {key : Nat} {cell : Cell ι φ} {contents : ValueSet ι φ} {rest : List (Nat × ValueSet ι φ)}
      (hkey : key ≠ noCell) (hcell : s.cells[key]? = some cell) (hcontents : R cell contents)
      (hrest : Renewal s R cell.succ rest) : Renewal s R key ((key, contents) :: rest)

variable {R : Cell ι φ → ValueSet ι φ → Prop} {updates : List (Nat × ValueSet ι φ)}

theorem Renewal.of_mem (hrenewal : s.Renewal R key updates) {first : Nat} (hreaches : s.Reaches first key) :
    ∀ entry ∈ updates, s.Reaches first entry.1 ∧ ∃ cell, s.cells[entry.1]? = some cell ∧ R cell entry.2 := by
  induction hrenewal with
  | done => simp
  | next hkey hcell hcontents _ ih =>
    exact forall_mem_cons.mpr ⟨⟨hreaches, _, hcell, hcontents⟩, ih (hreaches.next hkey hcell)⟩

theorem Chain.keys_renewal (hchain : s.Chain key cells) (hrenewal : s.Renewal R key updates) :
    (updates.map (·.1)).Sublist (cells.map (·.1)) := by
  induction hrenewal generalizing cells with
  | done => exact nil_sublist _
  | next hkey hcell _ _ ih =>
    cases hchain with
    | nil => exact absurd rfl hkey
    | cons _ hfound hrest =>
      cases hcell.symm.trans hfound
      exact (ih hrest).cons_cons _

variable [Domain ι φ]

/-- One step of collecting bytes: a cell gives its pieces, and the rest comes from its
successor on. -/
theorem exists_of_collectBytes_ok
    (hout : s.collectBytes address (fuel + 1) key start (remaining + 1) patterns = .ok out) :
    ∃ cell pieces, s.cell key = .ok cell ∧
      s.cellBytes cell start (min (cell.size - start) (remaining + 1)) = .ok pieces ∧
      s.collectBytes address fuel cell.succ 0 (remaining + 1 - min (cell.size - start) (remaining + 1))
        (patterns.flatMap fun pattern => pieces.map (pattern ++ ·)) = .ok out := by
  rw [collectBytes] at hout
  · split at hout
    · cases hout
    · obtain ⟨cell, hcell, hout⟩ := exists_of_bind_ok hout
      obtain ⟨pieces, hpieces, hout⟩ := exists_of_bind_ok hout
      dsimp only at hout
      split at hout
      · cases hout
      · exact ⟨cell, pieces, hcell, hpieces, hout⟩
  · exact Nat.succ_ne_zero remaining

/-- What every piece read on the way keeps up holds of the bytes in the end. -/
theorem collectBytes_induction {P : List BytePattern → Prop}
    (hstep : ∀ {key : Nat} {cell : Cell ι φ} {start length : Nat} {pieces patterns : List BytePattern},
      s.cells[key]? = some cell → s.cellBytes cell start length = .ok pieces → P patterns →
      P (patterns.flatMap fun pattern => pieces.map (pattern ++ ·))) (hpatterns : P patterns)
    (hout : s.collectBytes address fuel key start remaining patterns = .ok out) : P out := by
  induction fuel generalizing key start remaining patterns with
  | zero =>
    cases remaining <;> cases hout
    exact hpatterns
  | succ fuel ih =>
    cases remaining with
    | zero =>
      cases hout
      exact hpatterns
    | succ remaining =>
      obtain ⟨cell, pieces, hcell, hpieces, hrest⟩ := exists_of_collectBytes_ok hout
      exact ih (hstep (getElem?_of_cell hcell) hpieces hpatterns) hrest

variable [DecidableEq ι] [BEq φ]

/-- Packing goes along the links, with some bytes for each cell. -/
theorem renewal_repack {weak : Bool} {patches : List BytePattern} {length consumed : Nat}
    (hupdates : s.repack address weak patches length fuel key start consumed = .ok updates) :
    s.Renewal (fun cell contents => ∃ within skipped taken fresh,
      s.patchCell cell within (patches.map fun bytes => bytes.slice skipped taken) = .ok fresh ∧
      contents = merge weak cell.contents fresh) key updates := by
  induction fuel generalizing key start consumed updates with
  | zero =>
    unfold repack at hupdates
    split at hupdates <;> cases hupdates
    exact .done
  | succ fuel ih =>
    unfold repack at hupdates
    split at hupdates
    · cases hupdates
      exact .done
    · split at hupdates
      · cases hupdates
      next hkey =>
        obtain ⟨cell, hcell, hupdates⟩ := exists_of_bind_ok hupdates
        obtain ⟨fresh, hfresh, hupdates⟩ := exists_of_bind_ok hupdates
        obtain ⟨rest, hrest, hupdates⟩ := exists_of_bind_ok hupdates
        cases hupdates
        exact .next hkey (getElem?_of_cell hcell) ⟨_, _, _, fresh, hfresh, rfl⟩ (ih hrest)

/-- New contents that a write has for a cell: the values as they are, or the old contents with
bytes of the values packed in. -/
inductive Renews (s : Store ι φ) (values : ValueSet ι φ) (scalar : Scalar) (cell : Cell ι φ) :
    ValueSet ι φ → Prop where
  | whole (hcompatible : cell.scalar.compatible scalar = true) :
      Renews s values scalar cell (.ofList (values.items.map (retag cell.scalar)))
  | packed {patches : List BytePattern} {within skipped taken : Nat} {fresh : ValueSet ι φ}
      (hpatches : values.items.mapM (s.valueBytes (scalar.size s.target)) = .ok patches)
      (hfresh : s.patchCell cell within (patches.map fun bytes => bytes.slice skipped taken) = .ok fresh) :
      Renews s values scalar cell fresh

/-- A write merges new contents into the cells that it touches. -/
theorem exists_of_mem_updates {values : ValueSet ι φ} {scalar : Scalar} {forceWeak : Bool}
    (hupdates : s.updates address values scalar forceWeak = .ok updates) {entry : Nat × ValueSet ι φ}
    (hentry : entry ∈ updates) : ∃ place cell fresh, s.locate address = .ok place ∧ s.Reaches place.key entry.1 ∧
      s.cells[entry.1]? = some cell ∧ s.Renews values scalar cell fresh ∧
      entry.2 = merge (forceWeak || s.update = .weak || s.isSummary address.base) cell.contents fresh := by
  obtain ⟨place, hplace, hupdates⟩ := exists_of_bind_ok hupdates
  dsimp only at hupdates
  split at hupdates
  next hserved =>
    cases hupdates
    cases mem_singleton.mp hentry
    exact ⟨place, place.cell, _, hplace, .refl, getElem?_of_locate hplace, .whole hserved.2.1, rfl⟩
  next =>
    obtain ⟨patches, hpatches, hupdates⟩ := exists_of_bind_ok hupdates
    obtain ⟨hreaches, cell, hcell, within, skipped, taken, fresh, hfresh, heq⟩ :=
      (renewal_repack hupdates).of_mem .refl entry hentry
    exact ⟨place, cell, fresh, hplace, hreaches, hcell, .packed hpatches hfresh, heq⟩

/-- Clearing replaces the contents of the cells from a key on. -/
theorem renewal_zeroUpdates (hupdates : s.zeroUpdates fuel key = .ok updates) :
    s.Renewal (fun cell contents => s.zeroContents cell = .ok contents) key updates := by
  induction fuel generalizing key updates with
  | zero => cases hupdates
  | succ fuel ih =>
    unfold zeroUpdates at hupdates
    split at hupdates
    · cases hupdates
      exact .done
    next hkey =>
      obtain ⟨cell, hcell, hupdates⟩ := exists_of_bind_ok hupdates
      obtain ⟨contents, hcontents, hupdates⟩ := exists_of_bind_ok hupdates
      obtain ⟨rest, hrest, hupdates⟩ := exists_of_bind_ok hupdates
      cases hupdates
      exact .next hkey (getElem?_of_cell hcell) hcontents (ih hrest)

end CoreC.Store
