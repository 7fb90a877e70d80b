import CoreC.Proofs.Memory.Chain

/-! # Objects apart

When every unit of every object takes bytes, objects do not run into each other: the links
from a cell lead through its own object only, and a new object begins behind all cells there
are. Every kind of change to a store keeps it so.
-/

namespace CoreC.Store

variable {ι φ : Type}

/-- Allocating an object that is new adds it. -/
theorem allocate_ok_of_new {s s' : Store ι φ} {base : Base} {layout : Layout} {address : Address}
    (hnew : s.extents[base]? = none) (hrun : allocate base layout s = .ok address s') :
    address = ⟨base, 0⟩ ∧ layout.units ≠ [] ∧ layout.count ≠ 0 ∧
      s' = s.addObject base layout.flatten := by
  have hallocated : ¬s.isAllocated base = true := by simpa [isAllocated] using hnew
  unfold allocate at hrun
  rw [if_neg hallocated] at hrun
  split at hrun
  · cases hrun
  next hempty =>
    cases hrun
    rw [List.isEmpty_iff, not_or] at hempty
    exact ⟨rfl, hempty.1, hempty.2, rfl⟩

/-- The objects of the store lie apart from each other: each is tiled by its own cells, which
are linked in both directions, and every cell takes bytes. -/
structure Sound (s : Store ι φ) : Prop where
  ordered : s.Ordered
  tiled : ∀ {base : Base} {extent : Extent}, s.extents[base]? = some extent →
    ∃ cells, s.Tiles base extent cells ∧ Backed noCell cells
  solid : ∀ {key : Nat} {cell : Cell ι φ}, s.cells[key]? = some cell → 0 < cell.size

theorem sound_new (target : Target) (update : UpdatePolicy) (heap : HeapPolicy) :
    (new target update heap : Store ι φ).Sound where
  ordered := ordered_new target update heap
  tiled hextent := by simp [new] at hextent
  solid hcell := by simp [new] at hcell

variable {key : Nat}

/-- Links along the same cells lead through another store as well. -/
theorem Chain.transfer {s s' : Store ι φ} {cells : List (Nat × Cell ι φ)}
    (hchain : s.Chain key cells) (hkept : ∀ entry ∈ cells, s'.cells[entry.1]? = some entry.2) :
    s'.Chain key cells := by
  induction hchain with
  | nil => exact .nil
  | cons hkey hcell _ ih =>
    refine .cons hkey (hkept _ List.mem_cons_self) (ih fun entry hentry => ?_)
    exact hkept entry (List.mem_cons_of_mem _ hentry)

variable {s : Store ι φ} {cell : Cell ι φ}

/-- The cells of a new object were never written. -/
theorem unwritten_addObject (hordered : s.Ordered) {base : Base} (hnew : s.extents[base]? = none)
    (units : List StorageUnit) (hcell : (s.addObject base units).cells[key]? = some cell)
    (hbase : cell.base = base) : ∀ v ∈ cell.contents.items, v.isInitialized = false := by
  rcases cases_appendCells base units s.cells s.next 0 noCell hcell with
    ⟨hfresh, -⟩ | ⟨old, hold, heq⟩
  · rw [hfresh]
    simp [ValueSet.singleton, Value.isInitialized]
  · obtain ⟨extent, hextent, -⟩ := hordered.placed hold
    rw [heq] at hbase
    rw [hbase, hnew] at hextent
    cases hextent

section AddObject

variable {s : Store ι φ} {base : Base} {units : List StorageUnit}

/-- A new object lies behind all cells and leaves them as they are. -/
theorem Sound.getElem?_addObject (hs : s.Sound) (base : Base) (units : List StorageUnit)
    (hcell : s.cells[key]? = some cell) : (s.addObject base units).cells[key]? = some cell := by
  have hend := hs.ordered.end_le_next hcell
  have hpos := hs.ordered.key_pos hcell
  have hsize := hs.solid hcell
  have hkept := getElem?_appendCells base units s.cells 0 noCell (show key < s.next by omega)
  have hlinked : ¬(key = noCell ∧ units ≠ []) := by
    rintro ⟨hnone, -⟩
    rw [noCell] at hnone
    omega
  rw [if_neg hlinked] at hkept
  exact hkept.trans hcell

theorem Sound.addObject (hs : s.Sound) (hnew : s.extents[base]? = none) (hunits : units ≠ [])
    (hpos : ∀ unit ∈ units, 0 < unit.size) : (s.addObject base units).Sound where
  ordered := hs.ordered.addObject hnew units
  tiled {other extent} hextent := by
    obtain ⟨extent', cells, htiles, -, hbacked⟩ := tiles_addObject s base hunits hpos hs.ordered.next_pos
    by_cases hother : base = other
    · subst hother
      rw [htiles.allocated] at hextent
      cases hextent
      exact ⟨cells, htiles, hbacked⟩
    · have hold : s.extents[other]? = some extent := by
        have hinsert := Std.TreeMap.getElem?_insert (t := s.extents) (k := base) (a := other)
          (v := ⟨s.next, (appendCells base units s.cells s.next 0 noCell).2.2, false⟩)
        rw [if_neg (by simpa using hother)] at hinsert
        exact hinsert.symm.trans hextent
      obtain ⟨cells, htiles, hbacked⟩ := hs.tiled hold
      refine ⟨cells, ⟨hextent, htiles.chain.transfer fun entry hentry => ?_, htiles.own⟩, hbacked⟩
      exact hs.getElem?_addObject base units (htiles.chain.getElem? hentry)
  solid {key cell} hcell := by
    rcases cases_appendCells base units s.cells s.next 0 noCell hcell with
      ⟨-, unit, hunit, hsize⟩ | ⟨old, hold, heq⟩
    · rw [hsize]
      exact hpos unit hunit
    · have hsize := hs.solid hold
      rw [heq]
      exact hsize

end AddObject

theorem Sound.markSummary (hs : s.Sound) (base : Base) : (s.markSummary base).Sound where
  ordered := hs.ordered.markSummary base
  tiled {other extent} hextent := by
    obtain ⟨old, hold, hfirst, -⟩ := exists_of_extents_markSummary hextent
    obtain ⟨cells, htiles, hbacked⟩ := hs.tiled hold
    have hchain : (s.markSummary base).Chain extent.first cells := by
      rw [← hfirst]
      exact htiles.chain.transfer fun _ => htiles.chain.getElem?
    exact ⟨cells, ⟨hextent, hchain, htiles.own⟩, hbacked⟩
  solid := hs.solid

theorem Sound.withHeap (hs : s.Sound) (heap : Heap) (generation : Nat) :
    ({ s with heap, generation } : Store ι φ).Sound where
  ordered := hs.ordered
  tiled hextent := by
    obtain ⟨cells, htiles, hbacked⟩ := hs.tiled hextent
    exact ⟨cells, ⟨hextent, htiles.chain.transfer fun _ => htiles.chain.getElem?, htiles.own⟩, hbacked⟩
  solid := hs.solid

theorem Sound.commit [DecidableEq ι] [BEq φ] (hs : s.Sound)
    (updates : List (Nat × ValueSet ι φ)) : (s.commit updates).Sound where
  ordered := hs.ordered.commit updates
  tiled {base extent} hextent := by
    rw [commit_extents] at hextent
    obtain ⟨cells, htiles, hbacked⟩ := hs.tiled hextent
    refine ⟨_, ⟨by rw [commit_extents]; exact hextent, htiles.chain.commit updates, ?_⟩,
      hbacked.settled updates⟩
    intro entry hentry
    obtain ⟨old, hold, rfl⟩ := List.mem_map.mp hentry
    exact htiles.own old hold
  solid {key cell} hcell := by
    obtain ⟨old, hold, rfl⟩ := exists_of_getElem?_commit hcell
    have hsize := hs.solid hold
    exact hsize

end CoreC.Store
