import CoreC.Memory.Object
import CoreC.Proofs.Memory.Tape

/-! # Operations on memory

Every operation changes a store by a few kinds of changes: it replaces contents of cells,
marks an object as a summary, adds an object at the end of the tape, or touches the heap's
records. A property of stores that each kind keeps holds of every store that operations
can build; the order of the tape is one.
-/

namespace CoreC

open StorageUnit Std List

variable {forceWeak : Bool} {scalar : Scalar}

namespace Layout

variable (layout : Layout)

theorem flatten_ne_nil (hunits : layout.units ≠ []) (hcount : layout.count ≠ 0) :
    layout.flatten ≠ [] := by
  obtain ⟨n, hn⟩ := Nat.exists_eq_succ_of_ne_zero hcount
  simp [flatten, hn, replicate_succ, hunits]

theorem mem_units_of_mem_flatten {unit : StorageUnit}
    (hunit : unit ∈ layout.flatten) : unit ∈ layout.units := by
  obtain ⟨repeated, hrepeated, hmem⟩ := mem_flatten.mp hunit
  rwa [(mem_replicate.mp hrepeated).2] at hmem

theorem total_append (units others : List StorageUnit) :
    total (units ++ others) = total units + total others := by
  induction units with
  | nil => simp [total]
  | cons unit rest ih =>
    simp only [total, cons_append, foldr_cons] at ih ⊢
    omega

theorem total_flatten : total layout.flatten = layout.size := by
  obtain ⟨units, count⟩ := layout
  change total (replicate count units).flatten = total units * count
  induction count with
  | zero => rfl
  | succ count ih =>
    rw [replicate_succ, flatten_cons, total_append, ih, Nat.mul_succ, Nat.add_comm]

end Layout

/-- A new block gets the next number. -/
theorem Heap.allocate_fresh {h : Heap} {site : NodeId} {size : Nat} {kind : BlockKind}
    (hfresh : (h.allocate site size kind).1.2 = true) :
    (h.allocate site size kind).1.1 = h.blocks.size ∧
      (h.allocate site size kind).2.blocks.size = h.blocks.size + 1 := by
  unfold Heap.allocate at hfresh ⊢
  split
  next howned => simp [howned] at hfresh
  next => simp

theorem Heap.lt_of_fresh {h : Heap} {site : NodeId} {size : Nat} {kind : BlockKind}
    (hfresh : (h.allocate site size kind).1.2 = true) :
    (h.allocate site size kind).1.1 < (h.allocate site size kind).2.blocks.size := by
  obtain ⟨hid, hsize⟩ := allocate_fresh hfresh
  omega

namespace Store

variable {ι φ : Type}

/-- The store with a new object at the end of the tape. -/
def addObject (s : Store ι φ) (base : Base) (units : List StorageUnit) : Store ι φ :=
  let (cells, next, size) := appendCells base units s.cells s.next 0 noCell
  { s with cells, next, extents := s.extents.insert base ⟨s.next, size, false⟩ }

theorem appendCells_size (base : Base) (units : List StorageUnit) (cells : TreeMap Nat (Cell ι φ))
    (next offset previous : Nat) : (appendCells base units cells next offset previous).2.2 =
      offset + total units := by
  induction units generalizing cells next offset previous with
  | nil => rfl
  | cons unit rest ih => rw [Tape.appendCells_cons, ih, Nat.add_assoc]; rfl

section Install

variable [DecidableEq ι] [BEq φ]

/-- What a cell holds after new contents for some keys were installed. -/
def settle (key : Nat) : List (Nat × ValueSet ι φ) → ValueSet ι φ → ValueSet ι φ
  | [], held => held
  | (touched, contents) :: rest, held =>
    settle key rest (if touched = key ∧ !held.same contents then contents else held)

theorem getElem?_install (updates : List (Nat × ValueSet ι φ)) (cells : TreeMap Nat (Cell ι φ))
    (changed : Bool) (key : Nat) :
    (install updates cells changed).1[key]? =
      cells[key]?.map fun cell => { cell with contents := settle key updates cell.contents } := by
  induction updates generalizing cells changed with
  | nil => cases h : cells[key]? <;> simp [install, settle, h]
  | cons entry rest ih =>
    obtain ⟨touched, contents⟩ := entry
    by_cases hkey : touched = key
    · subst hkey
      cases htouched : cells[touched]? with
      | none => simp [install, htouched, ih]
      | some cell =>
        cases hsame : cell.contents.same contents <;> simp [install, htouched, hsame, ih, settle]
    · simp only [install]
      repeat' split
      all_goals simp [ih, settle, hkey, TreeMap.getElem?_insert]

theorem install_true (updates : List (Nat × ValueSet ι φ)) (cells : TreeMap Nat (Cell ι φ)) :
    (install updates cells true).2 = true := by
  induction updates generalizing cells with
  | nil => rfl
  | cons entry rest ih =>
    simp only [install]
    repeat' split
    all_goals exact ih _

theorem install_of_unchanged (updates : List (Nat × ValueSet ι φ))
    (cells : TreeMap Nat (Cell ι φ)) (hunchanged : (install updates cells false).2 = false) :
    (install updates cells false).1 = cells := by
  induction updates with
  | nil => rfl
  | cons entry rest ih =>
    unfold install at hunchanged ⊢
    split
    next cell hcell =>
      simp only [hcell] at hunchanged
      split
      next hsame => exact ih (by simpa only [hsame, ↓reduceIte] using hunchanged)
      next hdiffers => simp [hdiffers, install_true] at hunchanged
    next hcell => exact ih (by simpa only [hcell] using hunchanged)

variable (s : Store ι φ) (updates : List (Nat × ValueSet ι φ))

theorem commit_cells : (s.commit updates).cells = (install updates s.cells false).1 := by
  unfold commit
  cases hchanged : (install updates s.cells false).2 with
  | true => simp [hchanged]
  | false => simp [hchanged, install_of_unchanged updates s.cells hchanged]

/-- A store with other contents in its cells is the same store otherwise. -/
theorem commit_eq : ∃ generation, s.commit updates =
    { s with cells := (install updates s.cells false).1, generation } := by
  cases hchanged : (install updates s.cells false).2 with
  | true => exact ⟨s.generation + 1, by simp [commit, hchanged]⟩
  | false =>
    refine ⟨s.generation, ?_⟩
    rw [install_of_unchanged updates s.cells hchanged]
    simp [commit, hchanged]

@[simp] theorem commit_target : (s.commit updates).target = s.target := by
  obtain ⟨generation, heq⟩ := commit_eq s updates
  rw [heq]

@[simp] theorem commit_update : (s.commit updates).update = s.update := by
  obtain ⟨generation, heq⟩ := commit_eq s updates
  rw [heq]

@[simp] theorem commit_extents : (s.commit updates).extents = s.extents := by
  obtain ⟨generation, heq⟩ := commit_eq s updates
  rw [heq]

@[simp] theorem commit_next : (s.commit updates).next = s.next := by
  obtain ⟨generation, heq⟩ := commit_eq s updates
  rw [heq]

@[simp] theorem commit_heap : (s.commit updates).heap = s.heap := by
  obtain ⟨generation, heq⟩ := commit_eq s updates
  rw [heq]

theorem getElem?_commit (key : Nat) : (s.commit updates).cells[key]? =
    s.cells[key]?.map fun cell => { cell with contents := settle key updates cell.contents } := by
  rw [commit_cells, getElem?_install]

variable {s updates} {key : Nat}

theorem exists_of_getElem?_commit {cell : Cell ι φ}
    (hcell : (s.commit updates).cells[key]? = some cell) :
    ∃ old, s.cells[key]? = some old ∧ { old with contents := settle key updates old.contents } = cell := by
  rwa [getElem?_commit, Option.map_eq_some_iff] at hcell

/-- What a cell holds in the end is what it held, or comes from an update of its key. -/
theorem settle_induction {P : ValueSet ι φ → Prop}
    (hupdates : ∀ entry ∈ updates, entry.1 = key → P entry.2) {held : ValueSet ι φ}
    (hheld : P held) : P (settle key updates held) := by
  induction updates generalizing held with
  | nil => exact hheld
  | cons entry rest ih =>
    obtain ⟨hentry, hrest⟩ := forall_mem_cons.mp hupdates
    apply ih hrest
    split
    next htouched => exact hentry htouched.1
    next => exact hheld

theorem settle_of_forall_ne (huntouched : ∀ entry ∈ updates, entry.1 ≠ key) (held : ValueSet ι φ) :
    settle key updates held = held := by
  induction updates with
  | nil => rfl
  | cons entry rest ih =>
    have hhead := huntouched entry mem_cons_self
    rw [settle, if_neg (fun htouched => hhead htouched.1)]
    exact ih fun other hother => huntouched other (mem_cons_of_mem _ hother)

end Install

/-- What allocating leaves behind: the object that was there as a summary, nothing new, or a
new object. -/
theorem leaves_allocate (s : Store ι φ) (base : Base) (layout : Layout) :
    leaves (allocate base layout) s = s.markSummary base ∨ leaves (allocate base layout) s = s ∨
      (s.extents[base]? = none ∧ layout.units ≠ [] ∧ layout.count ≠ 0 ∧
        leaves (allocate base layout) s = s.addObject base layout.flatten) := by
  unfold leaves allocate
  by_cases hallocated : s.isAllocated base = true
  · rw [if_pos hallocated]
    exact .inl rfl
  · by_cases hempty : layout.units.isEmpty ∨ layout.count = 0
    · rw [if_neg hallocated, if_pos hempty]
      exact .inr (.inl rfl)
    · rw [if_neg hallocated, if_neg hempty]
      rw [List.isEmpty_iff, not_or] at hempty
      exact .inr (.inr ⟨by simpa [isAllocated] using hallocated, hempty.1, hempty.2, rfl⟩)

/-- What freeing does: it is refused, it does nothing to the null pointer, or it frees the
block that the address leads to. -/
theorem free_cases (s : Store ι φ) (address : Address) :
    (∃ fault, free address s = .error fault s) ∨
    (address.base = .null ∧ free address s = .ok ⟨⟩ s) ∨
    ∃ id heap, address.base = .heap id ∧ s.heap.free id = .ok heap ∧
      free address s = .ok ⟨⟩ { s with heap, generation := s.generation + 1 } := by
  unfold free
  split
  next id hid =>
    repeat' split
    · exact .inl ⟨_, rfl⟩
    · exact .inl ⟨_, rfl⟩
    next heap hheap => exact .inr (.inr ⟨id, heap, hid, hheap, rfl⟩)
    · exact .inl ⟨_, rfl⟩
  next hnull =>
    split
    · exact .inr (.inl ⟨hnull, rfl⟩)
    · exact .inl ⟨_, rfl⟩
  next => exact .inl ⟨_, rfl⟩

/-- What freeing leaves behind: nothing new, or the heap with one block freed. -/
theorem leaves_free (s : Store ι φ) (address : Address) :
    leaves (free address) s = s ∨ ∃ id heap, s.heap.free id = .ok heap ∧
      leaves (free address) s = { s with heap, generation := s.generation + 1 } := by
  rcases free_cases s address with ⟨fault, hrun⟩ | ⟨-, hrun⟩ | ⟨id, heap, -, hfree, hrun⟩
  · exact .inl (leaves_of_error hrun)
  · exact .inl (leaves_of_ok hrun)
  · exact .inr ⟨id, heap, hfree, leaves_of_ok hrun⟩

/-- A block is laid out when it is new, and one that serves again is only marked. -/
theorem malloc_eq (s : Store ι φ) (site : NodeId) (layout : Layout) : malloc site layout s =
      if (s.heap.allocate site layout.size .malloc).1.2 then
        allocate (.heap (s.heap.allocate site layout.size .malloc).1.1) layout
          { s with heap := (s.heap.allocate site layout.size .malloc).2 }
      else .ok ⟨.heap (s.heap.allocate site layout.size .malloc).1.1, 0⟩
        (markSummary { s with heap := (s.heap.allocate site layout.size .malloc).2 }
          (.heap (s.heap.allocate site layout.size .malloc).1.1)) := by
  change (if (s.heap.allocate site layout.size .malloc).1.2 then
    Store.allocate (.heap (s.heap.allocate site layout.size .malloc).1.1) layout else _) _ = _
  split <;> rfl

variable {values : ValueSet ι φ}

section Operations

variable [DecidableEq ι] [BEq φ] [Domain ι φ]

/-- What clearing leaves behind: nothing new, or new contents of the object's cells. -/
theorem leaves_zeroFill (s : Store ι φ) (base : Base) :
    leaves (zeroFill base) s = s ∨ ∃ extent updates, s.extents[base]? = some extent ∧
      s.zeroUpdates (s.cells.size + 1) extent.first = .ok updates ∧
      leaves (zeroFill base) s = s.commit updates := by
  unfold leaves zeroFill
  cases s.extents[base]? with
  | none => exact .inl rfl
  | some extent =>
    dsimp only
    cases hupdates : s.zeroUpdates (s.cells.size + 1) extent.first with
    | ok updates => exact .inr ⟨extent, updates, rfl, hupdates, rfl⟩
    | error fault => exact .inl rfl

/-- Relations that allow what writing does to memory, if what is written meets `W`. -/
structure AllowsWrites (R : Store ι φ → Store ι φ → Prop)
    (W : Store ι φ → Address → ValueSet ι φ → Scalar → Bool → Prop := fun _ _ _ _ _ =>
      True) : Prop extends Evolution R where
  written : ∀ {s address values scalar forceWeak updates}, W s address values scalar forceWeak →
    s.updates address values scalar forceWeak = .ok updates → R s (s.commit updates)

namespace AllowsWrites

variable {R : Store ι φ → Store ι φ → Prop} {W : Store ι φ → Address → ValueSet ι φ → Scalar → Bool → Prop}
  (hR : AllowsWrites R W)
include hR

variable (address : Address)

theorem write_at {s : Store ι φ} (hvalues : W s address values scalar forceWeak) :
    R s (leaves (write address values scalar forceWeak) s) := by
  unfold leaves Store.write
  cases hupdates : s.updates address values scalar forceWeak with
  | ok updates => exact hR.written hvalues hupdates
  | error fault => exact hR.refl s

theorem write (hvalues : ∀ s, W s address values scalar forceWeak) :
    Keeps R (write address values scalar forceWeak) :=
  fun s => hR.write_at address (hvalues s)

theorem writeChars {type : IntType}
    (hchars : ∀ s index n, W s (address.shift index) (.singleton (.ofInt s.target type n))
      (.int type) false) (step : Nat) (text : List UInt8)
    (index : Nat) : Keeps R (writeChars address type step text index) := by
  induction text generalizing index with
  | nil => exact .pure hR.toEvolution _
  | cons byte rest ih =>
    refine .read fun s => ?_
    exact Keeps.bind_at hR.toEvolution (hR.write_at _ (hchars s _ _)) fun _ => ih (index + 1)

theorem zeroFill (base : Base) (hcleared : ∀ {s extent fuel updates},
      s.extents[base]? = some extent → s.zeroUpdates fuel extent.first = .ok updates → R s (s.commit updates)) :
    Keeps R (zeroFill base) := by
  intro s
  rcases leaves_zeroFill s base with heq | ⟨_, updates, hextent, hupdates, heq⟩ <;> rw [heq]
  · exact hR.refl s
  · exact hcleared hextent hupdates

theorem copyUnits (source dest : Address) (hread : ∀ {s address scalar values offset},
    s.read address scalar = .ok values → W s (dest.shift offset) values scalar false)
    (units : List StorageUnit) (offset : Int) :
    Keeps R (copyUnits source dest units offset) := by
  induction units generalizing offset with
  | nil => exact .pure hR.toEvolution _
  | cons unit rest ih =>
    refine .read fun s => ?_
    split
    · exact hR.refl s
    next values hvalues => exact Keeps.bind_at hR.toEvolution (hR.write_at _ (hread hvalues)) fun _ => ih _

end AllowsWrites

/-- Relations that allow all that operations do to memory: besides, a block is recorded or freed,
and an object becomes a summary, or is added, if its base meets `B` and its units meet `P`. -/
structure Allows (P : StorageUnit → Prop) (R : Store ι φ → Store ι φ → Prop)
    (W : Store ι φ → Address → ValueSet ι φ → Scalar → Bool → Prop := fun _ _ _ _ _ => True)
    (B : Store ι φ → Base → Prop := fun _ _ => True) : Prop extends AllowsWrites R W where
  recorded : ∀ s site size kind,
    R s { s with heap := (s.heap.allocate site size kind).2 }
  freed : ∀ {s id heap}, s.heap.free id = .ok heap →
    R s { s with heap, generation := s.generation + 1 }
  summary : ∀ s base, R s (s.markSummary base)
  object : ∀ {s base units}, B s base → s.extents[base]? = none →
    units ≠ [] → (∀ unit ∈ units, P unit) → R s (s.addObject base units)

namespace Allows

variable {P : StorageUnit → Prop} {R : Store ι φ → Store ι φ → Prop}
  {W : Store ι φ → Address → ValueSet ι φ → Scalar → Bool → Prop} {B : Store ι φ → Base → Prop}
  (hR : Allows P R W B)
include hR

theorem allocate {base : Base} {s : Store ι φ} (hbase : B s base) {layout : Layout}
    (hlayout : ∀ unit ∈ layout.units, P unit) : R s (leaves (allocate base layout) s) := by
  rcases leaves_allocate s base layout with heq | heq | ⟨hnew, hunits, hcount, heq⟩ <;> rw [heq]
  · exact hR.summary s base
  · exact hR.refl s
  · exact hR.object hbase hnew (layout.flatten_ne_nil hunits hcount) fun unit hunit =>
      hlayout unit (layout.mem_units_of_mem_flatten hunit)

theorem free (address : Address) : Keeps R (free address) := by
  intro s
  rcases leaves_free s address with heq | ⟨id, heap, hfree, heq⟩ <;> rw [heq]
  · exact hR.refl s
  · exact hR.freed hfree

variable (hblocks : ∀ s id, id < s.heap.blocks.size → B s (.heap id))

include hblocks

theorem malloc (site : NodeId) {layout : Layout}
    (hlayout : ∀ unit ∈ layout.units, P unit) : Keeps R (malloc site layout) := by
  intro s
  refine hR.trans (hR.recorded s site layout.size .malloc) ?_
  rw [leaves, malloc_eq]
  split_ifs with hfresh
  · exact hR.allocate (hblocks _ _ (Heap.lt_of_fresh hfresh)) hlayout
  · exact hR.summary _ _

theorem literal (hchar : ∀ t : Target, P ⟨t.intWidth .char, .int .char⟩)
    (hchars : ∀ s address n, W s address (.singleton (.ofInt s.target .char n)) (.int .char) false) (site : NodeId)
    (text : List UInt8) : Keeps R (literal site text) := by
  intro s
  have hfill id fresh (s' : Store ι φ) (hid : fresh = true → id < s'.heap.blocks.size) :
      R s' (leaves (do
        if fresh then
          let _ ← Store.allocate (.heap id) ⟨[⟨s.target.intWidth .char, .int .char⟩], text.length + 1⟩
          Store.writeChars ⟨.heap id, 0⟩ .char (s.target.intWidth .char) (text ++ [0]) 0
        return ⟨.heap id, 0⟩ : StoreM ι φ Address) s') := by
    cases fresh with
    | false => exact hR.refl s'
    | true =>
      refine Keeps.bind_at hR.toEvolution (hR.allocate (hblocks s' id (hid rfl)) ?_) fun _ => ?_
      · simpa using hchar s.target
      · exact .bind hR.toEvolution (hR.writeChars _ (fun s _ => hchars s _) _ _ _) fun _ => .pure hR.toEvolution _
  refine hR.trans (hR.recorded s site (text.length + 1) .literal) (hfill _ _ _ Heap.lt_of_fresh)

end Allows

end Operations

/-- The cells of the store lie in order on its tape. -/
def Ordered (s : Store ι φ) : Prop := Tape s.cells s.extents s.next

theorem ordered_new (target : Target) (update : UpdatePolicy) (heap : HeapPolicy) :
    (new target update heap : Store ι φ).Ordered := .empty

theorem Ordered.commit [DecidableEq ι] [BEq φ] {s : Store ι φ} (hordered : s.Ordered)
    (updates : List (Nat × ValueSet ι φ)) : (s.commit updates).Ordered := by
  unfold Ordered
  rw [commit_extents, commit_next]
  refine ⟨hordered.next_pos, hordered.extent, ?_, ?_⟩
  · intro key cell hcell
    obtain ⟨old, hold, rfl⟩ := exists_of_getElem?_commit hcell
    obtain ⟨extent, hextent, hplaced⟩ := hordered.placed hold
    exact ⟨extent, hextent, hplaced.first_le, hplaced.end_le, hplaced.offset_eq, hplaced.link⟩
  · intro key other cell held hcell hheld hlt
    obtain ⟨old, hold, rfl⟩ := exists_of_getElem?_commit hcell
    obtain ⟨later, hlater, rfl⟩ := exists_of_getElem?_commit hheld
    have hend := hordered.apart hold hlater hlt
    exact hend

/-- Marking an object leaves it where it is. -/
theorem exists_of_extents_markSummary {s : Store ι φ} {base other : Base} {extent : Extent}
    (hextent : (s.markSummary base).extents[other]? = some extent) :
    ∃ old, s.extents[other]? = some old ∧ old.first = extent.first ∧ old.size = extent.size := by
  simp only [Store.markSummary, TreeMap.getElem?_modify, Std.compare_eq_iff_eq] at hextent
  split at hextent
  next hsame =>
    subst hsame
    obtain ⟨old, hold, rfl⟩ := Option.map_eq_some_iff.mp hextent
    exact ⟨old, hold, rfl, rfl⟩
  next => exact ⟨extent, hextent, rfl, rfl⟩

theorem Ordered.markSummary {s : Store ι φ} (hordered : s.Ordered) (base : Base) :
    (s.markSummary base).Ordered where
  next_pos := hordered.next_pos
  extent {other extent} hextent := by
    obtain ⟨old, hold, hfirst, hsize⟩ := exists_of_extents_markSummary hextent
    rw [← hfirst, ← hsize]
    exact hordered.extent hold
  placed {key cell} hcell := by
    obtain ⟨extent, hextent, hplaced⟩ := hordered.placed hcell
    simp only [Store.markSummary, TreeMap.getElem?_modify, Std.compare_eq_iff_eq]
    split
    next hsame =>
      subst hsame
      refine ⟨_, by rw [hextent]; rfl, ?_⟩
      exact ⟨hplaced.first_le, hplaced.end_le, hplaced.offset_eq, hplaced.link⟩
    next => exact ⟨extent, hextent, hplaced⟩
  apart := hordered.apart

theorem Ordered.addObject {s : Store ι φ} (hordered : s.Ordered) {base : Base}
    (hnew : s.extents[base]? = none) (units : List StorageUnit) :
    (s.addObject base units).Ordered := by
  have hopen := Tape.open_object hordered hnew
  refine Tape.appendCells units hopen ⟨?_, .inl rfl⟩
  intro key cell hcell hbase
  obtain ⟨extent, hextent, -⟩ := hordered.placed hcell
  rw [hbase, hnew] at hextent
  cases hextent

theorem size?_markSummary (s : Store ι φ) (base other : Base) : (s.markSummary base).size? other = s.size? other := by
  simp only [size?, markSummary, TreeMap.getElem?_modify, Std.compare_eq_iff_eq]
  split
  next hsame =>
    subst hsame
    cases s.extents[base]? <;> rfl
  next => rfl

theorem size?_addObject (s : Store ι φ) (base : Base) (units : List StorageUnit) (other : Base) :
    (s.addObject base units).size? other = if base = other then some (StorageUnit.total units) else s.size? other := by
  change ((s.extents.insert base _)[other]?).map _ = _
  rw [TreeMap.getElem?_insert, appendCells_size]
  simp only [Std.compare_eq_iff_eq, Nat.zero_add]
  split <;> rfl

section Reach

variable [DecidableEq ι] [BEq φ]

variable [Domain ι φ]

/-- What a client can ask of a store. -/
inductive Operation (ι φ : Type) where
  | allocate (base : Base) (layout : Layout)
  | malloc (site : NodeId) (layout : Layout)
  | literal (site : NodeId) (text : List UInt8)
  | free (address : Address)
  | write (address : Address) (values : ValueSet ι φ) (scalar : Scalar) (forceWeak : Bool)
  | zeroFill (base : Base)
  | markSummary (base : Base)

/-- The store after an operation, be it granted or refused. -/
def Operation.after (s : Store ι φ) : Operation ι φ → Store ι φ
  | .allocate base layout => leaves (Store.allocate base layout) s
  | .malloc site layout => leaves (Store.malloc site layout) s
  | .literal site text => leaves (Store.literal site text) s
  | .free address => leaves (Store.free address) s
  | .write address values scalar forceWeak => leaves (Store.write address values scalar forceWeak) s
  | .zeroFill base => leaves (Store.zeroFill base) s
  | .markSummary base => s.markSummary base

/-- The stores that operations build from an empty one. -/
inductive Reachable : Store ι φ → Prop where
  | new (target : Target) (update : UpdatePolicy) (heap : HeapPolicy) :
      Reachable (Store.new target update heap)
  | after {s : Store ι φ} (operation : Operation ι φ) : Reachable s → Reachable (operation.after s)

variable {s : Store ι φ}

theorem Reachable.foldl (hreach : s.Reachable) (operations : List (Operation ι φ)) :
    (operations.foldl Operation.after s).Reachable := by
  induction operations generalizing s with
  | nil => exact hreach
  | cons operation rest ih => exact ih (.after operation hreach)

/-- Every unit of the object that is asked for meets `P`. -/
def Operation.Uses (P : StorageUnit → Prop) : Operation ι φ → Prop
  | .allocate _ layout | .malloc _ layout => ∀ unit ∈ layout.units, P unit
  | _ => True

/-- What is allowed of each kind of change is allowed of every operation. -/
theorem Allows.after {P : StorageUnit → Prop} {R : Store ι φ → Store ι φ → Prop} (hR : Allows P R)
    (hchar : ∀ t : Target, P ⟨t.intWidth .char, .int .char⟩)
    (hcleared : ∀ s updates, R s (s.commit updates))
    {operation : Operation ι φ} (huses : operation.Uses P) (s : Store ι φ) :
    R s (operation.after s) := by
  cases operation with
  | allocate base layout => exact hR.allocate trivial huses
  | malloc site layout => exact hR.malloc (fun _ _ _ => trivial) site huses s
  | literal site text => exact hR.literal (fun _ _ _ => trivial) hchar (fun _ _ _ => trivial) site text s
  | free address => exact hR.free address s
  | write address values scalar forceWeak => exact hR.write address (fun _ => trivial) s
  | markSummary base => exact hR.summary s base
  | zeroFill base => exact hR.zeroFill base (fun _ _ => hcleared _ _) s

omit [DecidableEq ι] [BEq φ] [Domain ι φ] in
theorem Operation.uses_trivial (operation : Operation ι φ) : operation.Uses fun _ => True := by
  cases operation <;> simp [Operation.Uses]

theorem Operation.target_after (operation : Operation ι φ) (s : Store ι φ) :
    (operation.after s).target = s.target := by
  have hR : Allows (fun _ => True) fun s s' : Store ι φ => s'.target = s.target :=
    { refl := fun _ => rfl
      trans := fun hfirst hsecond => hsecond.trans hfirst
      recorded := fun _ _ _ _ => rfl
      freed := fun _ => rfl
      summary := fun _ _ => rfl
      object := fun _ _ _ _ => rfl
      written := fun _ _ => commit_target _ _ }
  exact hR.after (fun _ => trivial) commit_target operation.uses_trivial s

theorem Operation.ordered_after (operation : Operation ι φ) (hordered : s.Ordered) :
    (operation.after s).Ordered := by
  have hR : Allows (fun _ => True) fun s s' : Store ι φ => s.Ordered → s'.Ordered :=
    { toEvolution := .implies _
      recorded := fun _ _ _ _ => id
      freed := fun _ => id
      summary := fun _ base hordered => hordered.markSummary base
      object := fun _ hnew _ _ hordered => hordered.addObject hnew _
      written := fun _ _ hordered => hordered.commit _ }
  exact hR.after (fun _ => trivial) (fun _ updates hordered => hordered.commit updates)
    operation.uses_trivial s hordered

/-- The cells of every store that operations build lie in order on its tape. -/
theorem Reachable.ordered (hreach : s.Reachable) : s.Ordered := by
  induction hreach with
  | new target update heap => exact ordered_new target update heap
  | after operation _ ih => exact operation.ordered_after ih

end Reach

end Store

end CoreC
