import CoreC.Memory.Store
import CoreC.Proofs.Effect
import Std.Data.DTreeMap.Internal.WF.Lemmas

/-! # The tape

Whatever operations built a store, its cells lie one after the other on the tape, each
inside the extent of its object and none over another. A cell that takes bytes is
followed by the cell that starts where it ends, or by none when it ends its object.
(A unit of no bytes is overwritten by the unit after it, which then follows itself.)
-/

namespace CoreC

open List Std Option

variable {β : Type}

theorem getEntryLE?_eq_find? (map : TreeMap Nat β) (position : Nat) : map.getEntryLE? position =
      map.toList.reverse.find? fun entry => (compare entry.1 position).isLE := by
  rw [← findRev?_eq_find?_reverse]
  change DTreeMap.Internal.Impl.Const.getEntryLE? position map.inner.inner =
    (DTreeMap.Internal.Impl.Const.toList map.inner.inner).findRev? _
  rw [DTreeMap.Internal.Impl.Const.getEntryLE?_eq_map,
    DTreeMap.Internal.Impl.getEntryLE?_eq_findRev? map.inner.wf.ordered,
    DTreeMap.Internal.Impl.Const.toList_eq_toListModel_map,
    findRev?_eq_find?_reverse, findRev?_eq_find?_reverse, ← map_reverse,
    find?_map]
  rfl

theorem getEntryLE?_map {β γ : Type} (f : Nat → β → γ) (map : TreeMap Nat β) (position : Nat) :
    (map.map f).getEntryLE? position =
      (map.getEntryLE? position).map fun entry => (entry.1, f entry.1 entry.2) := by
  rw [getEntryLE?_eq_find?, getEntryLE?_eq_find?, TreeMap.toList_map, ← map_reverse, find?_map]
  rfl

variable {position key : Nat} {map : TreeMap Nat β} {value : β}

theorem getElem?_of_getEntryLE?
    (hentry : map.getEntryLE? position = some (key, value)) : map[key]? = some value := by
  rw [getEntryLE?_eq_find?] at hentry
  have hmem := mem_of_find?_eq_some hentry
  exact TreeMap.mem_toList_iff_getElem?_eq_some.mp (mem_reverse.mp hmem)

theorem key_le_of_getEntryLE?
    (hentry : map.getEntryLE? position = some (key, value)) : key ≤ position := by
  rw [getEntryLE?_eq_find?] at hentry
  have hle := find?_some hentry
  exact Nat.isLE_compare.mp hle

theorem exists_getEntryLE?
    (hvalue : map[key]? = some value) (hle : key ≤ position) : ∃ entry, map.getEntryLE? position = some entry := by
  have hmem : (key, value) ∈ map.toList.reverse :=
    mem_reverse.mpr (TreeMap.mem_toList_iff_getElem?_eq_some.mpr hvalue)
  rw [getEntryLE?_eq_find?, ← isSome_iff_exists, find?_isSome]
  exact ⟨_, hmem, Nat.isLE_compare.mpr hle⟩

/-- The nearest entry at or below a position is the greatest key that does not pass it. -/
theorem getEntryLE?_eq_some (hvalue : map[key]? = some value) (hle : key ≤ position)
    (hnearest : ∀ other held, map[other]? = some held → other ≤ position → other ≤ key) :
    map.getEntryLE? position = some (key, value) := by
  obtain ⟨entry, hentry⟩ := exists_getEntryLE? hvalue hle
  have hkey := hnearest _ _ (getElem?_of_getEntryLE? hentry) (key_le_of_getEntryLE? hentry)
  have hmem : (key, value) ∈ map.toList.reverse :=
    mem_reverse.mpr (TreeMap.mem_toList_iff_getElem?_eq_some.mpr hvalue)
  rw [hentry]
  rw [getEntryLE?_eq_find?] at hentry
  obtain ⟨-, later, earlier, hsplit, hlater⟩ := find?_eq_some_iff_append.mp hentry
  rw [hsplit, mem_append, mem_cons] at hmem
  rcases hmem with hmem | rfl | hmem
  · have hpast := hlater _ hmem
    simp [Nat.isLE_compare.mpr hle] at hpast
  · rfl
  · have hsorted := pairwise_reverse.mpr map.ordered_keys_toList
    rw [hsplit, pairwise_append, pairwise_cons] at hsorted
    have hless : key < entry.1 := Nat.compare_eq_lt.mp (hsorted.2.1.1 _ hmem)
    omega

/-! Maps with related entries at the same keys. -/

section Rel

variable {β γ : Type} {R : β → γ → Prop} {map : TreeMap Nat β} {other : TreeMap Nat γ}

variable (hrel : ∀ key : Nat, Rel R map[key]? other[key]?)

include hrel

theorem sameKeys_rel : (map.map fun _ _ => ()).Equiv (other.map fun _ _ => ()) := by
  apply TreeMap.Equiv.of_forall_constGet?_eq
  intro key
  rcases cases_rel (hrel key) with ⟨hnone, hnone'⟩ | ⟨value, known, hvalue, hknown, -⟩
  · simp [TreeMap.getElem?_map, hnone, hnone']
  · simp [TreeMap.getElem?_map, hvalue, hknown]

theorem size_rel : map.size = other.size := by
  have hsize := (sameKeys_rel hrel).size_eq
  rwa [TreeMap.size_map, TreeMap.size_map] at hsize

/-- The entries nearest to a position have one key. -/
theorem getEntryLE?_rel (position : Nat) :
    Rel (fun entry known => entry.1 = known.1 ∧ R entry.2 known.2)
      (map.getEntryLE? position) (other.getEntryLE? position) := by
  have hsame := (sameKeys_rel hrel).getEntryLE?_eq (k := position)
  rw [getEntryLE?_map, getEntryLE?_map] at hsame
  cases hfound : map.getEntryLE? position with
  | none =>
    cases hknown : other.getEntryLE? position with
    | none => exact .none
    | some known => simp [hfound, hknown] at hsame
  | some entry =>
    cases hknown : other.getEntryLE? position with
    | none => simp [hfound, hknown] at hsame
    | some known =>
      obtain ⟨key, value⟩ := entry
      obtain ⟨key', value'⟩ := known
      simp only [hfound, hknown, map_some, some.injEq, Prod.mk.injEq, and_true] at hsame
      subst hsame
      have hvalue := hrel key
      rw [getElem?_of_getEntryLE? hfound, getElem?_of_getEntryLE? hknown] at hvalue
      cases hvalue with
      | some hvalue => exact .some ⟨rfl, hvalue⟩

end Rel

namespace Store

variable {ι φ : Type}

/-- How a cell lies in its object. -/
structure Placed (extent : Extent) (key : Nat) (cell : Cell ι φ) : Prop where
  first_le : extent.first ≤ key
  end_le : key + cell.size ≤ extent.first + extent.size
  offset_eq : key = extent.first + cell.offset
  link : 0 < cell.size → (cell.succ = noCell ∧ key + cell.size = extent.first + extent.size) ∨
      cell.succ = key + cell.size ∨ cell.succ = key

variable {key : Nat}

/-- An old cell of the object stays in its place when a unit is appended. -/
theorem Placed.grow {first offset size : Nat} {cell old : Cell ι φ}
    (hplaced : Placed ⟨first, offset, false⟩ key old) (hoffset : cell.offset = old.offset)
    (hsize : cell.size = old.size)
    (hlink : 0 < cell.size → cell.succ = key + cell.size ∨ cell.succ = key) :
    Placed ⟨first, offset + size, false⟩ key cell where
  first_le := hplaced.first_le
  end_le := by
    have hend : key + old.size ≤ first + offset := hplaced.end_le
    change key + cell.size ≤ first + (offset + size)
    omega
  offset_eq := by rw [hoffset]; exact hplaced.offset_eq
  link hpos := .inr (hlink hpos)

/-- How the cells and extents of a store lie on the tape. -/
structure Tape (cells : TreeMap Nat (Cell ι φ)) (extents : TreeMap Base Extent)
    (next : Nat) : Prop where
  next_pos : 0 < next
  extent : ∀ {base : Base} {extent : Extent}, extents[base]? = some extent →
    0 < extent.first ∧ extent.first + extent.size ≤ next
  placed : ∀ {key cell}, cells[key]? = some cell →
    ∃ extent, extents[cell.base]? = some extent ∧ Placed extent key cell
  apart : ∀ {key other : Nat} {cell held : Cell ι φ}, cells[key]? = some cell →
    cells[other]? = some held → key < other → key + cell.size ≤ other

namespace Tape

variable {cells : TreeMap Nat (Cell ι φ)} {extents : TreeMap Base Extent} {next : Nat} {cell : Cell ι φ}

theorem empty : Tape (∅ : TreeMap Nat (Cell ι φ)) ∅ 1 where
  next_pos := by omega
  extent hextent := by simp at hextent
  placed hcell := by simp at hcell
  apart hcell := by simp at hcell

variable {base : Base}

section

variable (htape : Tape cells extents next)

include htape

theorem key_pos (hcell : cells[key]? = some cell) : 0 < key := by
  obtain ⟨extent, hextent, hplaced⟩ := htape.placed hcell
  have hfirst := htape.extent hextent
  have hle := hplaced.first_le
  omega

theorem end_le_next (hcell : cells[key]? = some cell) : key + cell.size ≤ next := by
  obtain ⟨extent, hextent, hplaced⟩ := htape.placed hcell
  have hfirst := htape.extent hextent
  have hle := hplaced.end_le
  omega

/-- An object that is new starts out with no bytes at the end of the tape. -/
theorem open_object
    (hnew : extents[base]? = none) : Tape cells (extents.insert base ⟨next, 0, false⟩) next where
  next_pos := htape.next_pos
  extent {other extent} hextent := by
    rw [TreeMap.getElem?_insert] at hextent
    split at hextent
    · cases hextent
      exact ⟨htape.next_pos, by simp⟩
    · exact htape.extent hextent
  placed {key cell} hcell := by
    obtain ⟨extent, hextent, hplaced⟩ := htape.placed hcell
    refine ⟨extent, ?_, hplaced⟩
    have hother : base ≠ cell.base := by
      rintro rfl
      simp [hnew] at hextent
    simp [TreeMap.getElem?_insert, hother, hextent]
  apart := htape.apart

end

/-- The cells with one more unit of the object at the end of the tape, linked from
`previous`. -/
def link (cells : TreeMap Nat (Cell ι φ)) (base : Base) (unit : StorageUnit)
    (next offset previous : Nat) : TreeMap Nat (Cell ι φ) :=
  (cells.insert next
    { base, offset, size := unit.size, scalar := unit.scalar
      contents := .singleton (.uninitialized unit.scalar), pred := previous, succ := noCell }).modify
    previous ({ · with succ := next })

/-- What is known of the object at the end of the tape while its units are appended:
`previous` is its last cell, the only one that may still have no successor. -/
structure Growing (cells : TreeMap Nat (Cell ι φ)) (base : Base) (next previous : Nat) :
    Prop where
  last : ∀ {key cell}, cells[key]? = some cell → cell.base = base →
    cell.succ = noCell → key = previous
  previous_end : previous = noCell ∨
    ∃ cell, cells[previous]? = some cell ∧ cell.base = base ∧ previous + cell.size = next

theorem getElem?_link (cells : TreeMap Nat (Cell ι φ)) (base : Base) (unit : StorageUnit)
    (next offset previous key : Nat) :
    (link cells base unit next offset previous)[key]? = if key = next then
        some { base, offset, size := unit.size, scalar := unit.scalar
               contents := .singleton (.uninitialized unit.scalar), pred := previous
               succ := if previous = next then next else noCell }
      else if key = previous then cells[key]?.map ({ · with succ := next })
      else cells[key]? := by
  unfold link
  rw [TreeMap.getElem?_modify, TreeMap.getElem?_insert, TreeMap.getElem?_insert]
  simp only [Std.compare_eq_iff_eq]
  by_cases hnext : key = next
  · subst hnext
    by_cases hprevious : previous = key <;> simp [hprevious]
  · by_cases hprevious : previous = key
    · subst hprevious
      simp [hnext, Ne.symm hnext]
    · simp [hnext, Ne.symm hnext, hprevious, Ne.symm hprevious]

/-- A cell of the tape with one more unit is the new one or an old one, which keeps all but
its successor. -/
theorem cases_link {unit : StorageUnit} {offset previous key : Nat}
    (hcell : (link cells base unit next offset previous)[key]? = some cell) :
    (key = next ∧ cell.base = base ∧ cell.offset = offset ∧ cell.size = unit.size ∧
        (cell.succ = noCell ∨ cell.succ = next)) ∨
      (key ≠ next ∧ ∃ old, cells[key]? = some old ∧ cell.base = old.base ∧
        cell.offset = old.offset ∧ cell.size = old.size ∧
        cell.succ = if key = previous then next else old.succ) := by
  rw [getElem?_link] at hcell
  split at hcell
  next hnext =>
    cases hcell
    refine .inl ⟨hnext, rfl, rfl, rfl, ?_⟩
    dsimp only
    split <;> simp
  next hnext =>
    refine .inr ⟨hnext, ?_⟩
    split at hcell
    next hprevious =>
      obtain ⟨old, hold, rfl⟩ := map_eq_some_iff.mp hcell
      exact ⟨old, hold, rfl, rfl, rfl, by simp [hprevious]⟩
    next hprevious => exact ⟨cell, hcell, rfl, rfl, rfl, by simp [hprevious]⟩

/-- The last cell belongs to the object and ends where the tape ends. -/
theorem Growing.of_previous {previous : Nat}
    (hgrowing : Growing cells base next previous) (htape : Tape cells extents next)
    (hcell : cells[previous]? = some cell) : cell.base = base ∧ previous + cell.size = next := by
  rcases hgrowing.previous_end with hnone | ⟨last, hlast, hbase, hend⟩
  · have hpos := htape.key_pos hcell
    simp [hnone, noCell] at hpos
  · rw [hcell] at hlast
    cases hlast
    exact ⟨hbase, hend⟩

variable {base : Base} {first offset previous : Nat}

section

variable (htape : Tape cells (extents.insert base ⟨first, offset, false⟩) (first + offset))
  (hgrowing : Growing cells base (first + offset) previous)

include htape hgrowing

/-- Every cell has its place after a unit was appended. -/
theorem placed_link {unit : StorageUnit}
    (hcell : (link cells base unit (first + offset) offset previous)[key]? = some cell) :
    ∃ extent, (extents.insert base ⟨first, offset + unit.size, false⟩)[cell.base]? = some extent ∧
      Placed extent key cell := by
  rcases cases_link hcell with ⟨rfl, hbase, hoffset, hsize, hsucc⟩ |
    ⟨hkey, old, hold, hbase, hoffset, hsize, hsucc⟩
  · refine ⟨_, by rw [hbase, TreeMap.getElem?_insert_self], ?_⟩
    refine ⟨by simp, by simp [hsize, Nat.add_assoc], by simp [hoffset], fun _ => ?_⟩
    rcases hsucc with hsucc | hsucc
    · exact .inl ⟨hsucc, by simp [hsize, Nat.add_assoc]⟩
    · exact .inr (.inr hsucc)
  · obtain ⟨extent, hextent, hplaced⟩ := htape.placed hold
    simp only [hbase, TreeMap.getElem?_insert, Std.compare_eq_iff_eq] at hextent ⊢
    split at hextent
    next hsame =>
      cases hextent
      rw [if_pos hsame]
      refine ⟨_, rfl, hplaced.grow hoffset hsize fun hpos => ?_⟩
      rw [hsize, hsucc]
      split
      next hprevious =>
        subst hprevious
        have hend := (hgrowing.of_previous htape hold).2
        exact .inl (by omega)
      next hprevious =>
        rcases hplaced.link (by omega) with ⟨hnone, -⟩ | hlink
        · exact absurd (hgrowing.last hold hsame.symm hnone) hprevious
        · exact hlink
    next hother =>
      have hprevious : key ≠ previous := by
        rintro rfl
        exact hother (hgrowing.of_previous htape hold).1.symm
      rw [if_neg hother]
      rw [if_neg hprevious] at hsucc
      exact ⟨extent, hextent, ⟨hplaced.first_le, by rw [hsize]; exact hplaced.end_le,
        by rw [hoffset]; exact hplaced.offset_eq, by rw [hsize, hsucc]; exact hplaced.link⟩⟩

/-- Appending a unit keeps the tape in order, with the object grown by the unit. -/
theorem append_unit (unit : StorageUnit) :
    Tape (link cells base unit (first + offset) offset previous)
      (extents.insert base ⟨first, offset + unit.size, false⟩) (first + offset + unit.size) := by
  have hfirst : 0 < first := (htape.extent TreeMap.getElem?_insert_self).1
  refine ⟨by omega, ?_, placed_link htape hgrowing, ?_⟩
  · intro other extent hextent
    rw [TreeMap.getElem?_insert] at hextent
    split at hextent
    next =>
      cases hextent
      exact ⟨hfirst, by simp [Nat.add_assoc]⟩
    next hother =>
      have hkept : (extents.insert base ⟨first, offset, false⟩)[other]? = some extent := by
        rw [TreeMap.getElem?_insert, if_neg hother, hextent]
      have hold := htape.extent hkept
      omega
  · intro key other cell held hcell hheld hlt
    rcases cases_link hcell with ⟨rfl, -, -, hsize, -⟩ | ⟨hkey, old, hold, -, -, hsize, -⟩ <;>
      rcases cases_link hheld with ⟨rfl, -⟩ | ⟨hother, later, hlater, -⟩
    · omega
    · have hend := htape.end_le_next hlater
      omega
    · have hend := htape.end_le_next hold
      omega
    · rw [hsize]
      exact htape.apart hold hlater hlt

end

/-- The appended unit is the last cell. -/
theorem Growing.append_unit (htape : Tape cells extents next)
    (hgrowing : Growing cells base next previous) (unit : StorageUnit) (offset : Nat) :
    Growing (link cells base unit next offset previous) base (next + unit.size) next where
  last {key cell} hcell hbase hnone := by
    rcases cases_link hcell with ⟨hkey, -⟩ | ⟨-, old, hold, hsame, -, -, hsucc⟩
    · exact hkey
    · have hpos := htape.next_pos
      split at hsucc
      · rw [hnone, noCell] at hsucc
        omega
      next hprevious =>
        exact absurd (hgrowing.last hold (hsame ▸ hbase) (hsucc ▸ hnone)) hprevious
  previous_end := .inr ⟨_, by rw [getElem?_link, if_pos rfl], rfl, rfl⟩

theorem appendCells_cons (base : Base) (unit : StorageUnit) (rest : List StorageUnit)
    (cells : TreeMap Nat (Cell ι φ)) (next offset previous : Nat) :
    Store.appendCells base (unit :: rest) cells next offset previous =
      Store.appendCells base rest (link cells base unit next offset previous) (next + unit.size)
        (offset + unit.size) next := rfl

/-- Appending units keeps the tape in order. -/
theorem appendCells (units : List StorageUnit)
    (htape : Tape cells (extents.insert base ⟨first, offset, false⟩) (first + offset))
    (hgrowing : Growing cells base (first + offset) previous) :
    let appended := Store.appendCells base units cells (first + offset) offset previous
    Tape appended.1 (extents.insert base ⟨first, appended.2.2, false⟩) appended.2.1 := by
  induction units generalizing cells offset previous with
  | nil => exact htape
  | cons unit rest ih =>
    have hnext := htape.append_unit hgrowing unit
    have hgrown := hgrowing.append_unit htape unit offset
    rw [Nat.add_assoc] at hnext hgrown
    have happended := ih hnext hgrown
    rw [appendCells_cons, Nat.add_assoc]
    exact happended

end Tape

end Store

end CoreC
