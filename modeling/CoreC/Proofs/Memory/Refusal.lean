import CoreC.Proofs.Memory.Accumulation
import CoreC.Proofs.Memory.Provision

/-! # Refused operations

A refused operation leaves the store as it was, with one exception. The request for a heap block is
recorded before the object is laid out, so the record stays when there is nothing to lay out. A
string literal has a byte at least, and all its characters go into cells of their own: it can be
refused only where another object was laid out under the number of its block.
-/

namespace CoreC.Store

open List

variable {site : NodeId} {ι φ : Type} {s : Store ι φ} {base : Base} {step count index : Nat}

/-! ## Failures -/

/-- The computation fails. -/
def Fails {α : Type} (act : StoreM ι φ α) (s : Store ι φ) : Prop := ∃ fault s', act s = .error fault s'

/-- A failure leaves the store alone. -/
def Atomic {α : Type} (act : StoreM ι φ α) : Prop := ∀ s fault s', act s = .error fault s' → s' = s

theorem Atomic.leaves {α : Type} {act : StoreM ι φ α} (hact : Atomic act) (hfails : Fails act s) :
    CoreC.leaves act s = s := by
  obtain ⟨fault, s', hrun⟩ := hfails
  exact (leaves_of_error hrun).trans (hact s fault s' hrun)

theorem atomic_allocate (base : Base) (layout : Layout) :
    Atomic (allocate base layout : StoreM ι φ Address) := by
  intro s fault s' hrun
  unfold allocate at hrun
  split_ifs at hrun
  cases hrun
  rfl

theorem atomic_free (address : Address) : Atomic (free address : StoreM ι φ PUnit) := by
  intro s fault s' hrun
  rcases free_cases s address with ⟨_, hcase⟩ | ⟨-, hcase⟩ | ⟨_, _, -, -, hcase⟩ <;> cases hcase.symm.trans hrun
  rfl

/-- A block that was recorded makes another store. -/
theorem ne_of_recorded {size : Nat} {kind : BlockKind} (hunowned : s.heap.owned? site kind = none)
    {s' : Store ι φ} (hheap : s'.heap = (s.heap.allocate site size kind).2) : s' ≠ s := by
  rintro rfl
  have hsize := congrArg (·.blocks.size) hheap
  simp [Heap.allocate, hunowned] at hsize

/-- A request is refused if there is nothing to lay out. -/
theorem empty_of_malloc_fails {layout : Layout} (hfails : Fails (malloc site layout) s) :
    s.heap.owned? site .malloc = none ∧ (layout.units = [] ∨ layout.count = 0) := by
  obtain ⟨fault, s', hrun⟩ := hfails
  cases howned : s.heap.owned? site .malloc with
  | some id =>
    rw [malloc_eq] at hrun
    simp [Heap.allocate, howned] at hrun
  | none =>
    rw [malloc_of_unowned howned, allocate] at hrun
    split_ifs at hrun with _ hempty
    exact ⟨rfl, hempty.imp_left List.isEmpty_iff.mp⟩

/-! ## Literals -/

/-- An object of characters, each in a cell of its own, that may be accessed. -/
structure CharObject (s : Store ι φ) (base : Base) (step count : Nat) : Prop where
  ordered : s.Ordered
  usable : s.Usable base
  tiled : ∃ extent cells, s.Tiles base extent cells ∧
    cells.map (fun entry => (⟨entry.2.size, entry.2.scalar⟩ : StorageUnit)) = .replicate count ⟨step, .int .char⟩

theorem span_of_forall_size {cells : List (Nat × Cell ι φ)} (hsize : ∀ entry ∈ cells, entry.2.size = step) :
    span cells = cells.length * step := by
  induction cells with
  | nil => simp [span]
  | cons entry rest ih =>
    obtain ⟨hentry, hrest⟩ := forall_mem_cons.mp hsize
    rw [span_cons, hentry, ih hrest, length_cons, Nat.add_one_mul, Nat.add_comm]

/-- Each character is found in its cell. -/
theorem CharObject.locate (hs : s.CharObject base step count) (hindex : index < count) :
    ∃ key cell, s.locate ⟨base, (index * step : Nat)⟩ = .ok ⟨key, cell, 0⟩ ∧
      (cell.base = base ∧ cell.offset = index * step) ∧ cell.scalar = .int .char := by
  obtain ⟨extent, cells, htiles, hshape⟩ := hs.tiled
  have hunit {entry} (hentry : entry ∈ cells) :
      (⟨entry.2.size, entry.2.scalar⟩ : StorageUnit) = ⟨step, .int .char⟩ :=
    eq_of_mem_replicate (hshape ▸ mem_map_of_mem hentry)
  have hlength : cells.length = count := by simpa using congrArg length hshape
  have hsplit : cells = cells.take index ++ cells[index] :: cells.drop (index + 1) := by simp
  have hspan : span (cells.take index) = index * step := by
    rw [span_of_forall_size fun entry hentry => congrArg StorageUnit.size (hunit (mem_of_mem_take hentry)),
      length_take, Nat.min_eq_left (by omega)]
  obtain ⟨hbase, hpos⟩ := htiles.own cells[index] (getElem_mem _)
  have hscalar := congrArg StorageUnit.scalar (hunit (getElem_mem (l := cells) (hlength ▸ hindex)))
  rw [hsplit] at htiles
  generalize cells[index] = entry at htiles hbase hpos hscalar
  obtain ⟨key, cell⟩ := entry
  have hkey : key = _ := (htiles.laid hs.ordered).of_append.1
  have hfound := htiles.locate_append hs.ordered hs.usable (Nat.le_of_eq hspan)
    (by rw [hspan]; exact Nat.lt_add_of_pos_right hpos)
  obtain ⟨owner, howner, hplaced⟩ := hs.ordered.placed (getElem?_of_locate hfound)
  cases (congrArg (s.extents[·]?) hbase.symm).trans howner ▸ htiles.allocated
  have hoffset : key = _ + cell.offset := hplaced.offset_eq
  rw [hspan, Nat.sub_self] at hfound
  exact ⟨key, cell, hfound, ⟨hbase, by omega⟩, hscalar⟩

theorem allocate_of_new (hnew : ¬s.isAllocated base) (layout : Layout) (hunits : layout.units ≠ [])
    (hcount : layout.count ≠ 0) : allocate base layout s = .ok ⟨base, 0⟩ (s.addObject base layout.flatten) := by
  unfold allocate
  rw [if_neg hnew, if_neg (by simp [hunits, hcount])]
  rfl

/-- A new object of characters. -/
theorem Ordered.charObject (hordered : s.Ordered) (husable : s.Usable base) (hnew : s.extents[base]? = none)
    (hstep : 0 < step) :
    (s.addObject base (.replicate (count + 1) ⟨step, .int .char⟩)).CharObject base step (count + 1) := by
  have hunits : replicate (count + 1) (⟨step, .int .char⟩ : StorageUnit) ≠ [] := by simp
  obtain ⟨extent, cells, htiles, hshape, -⟩ := tiles_addObject s base hunits
    (fun unit hunit => by rw [eq_of_mem_replicate hunit]; exact hstep) hordered.next_pos
  refine ⟨hordered.addObject hnew _, ?_, extent, cells, htiles, hshape⟩
  cases base <;> exact husable

variable [DecidableEq ι] [BEq φ]

theorem CharObject.commit (hs : s.CharObject base step count) (updates : List (Nat × ValueSet ι φ)) :
    (s.commit updates).CharObject base step count where
  ordered := hs.ordered.commit updates
  usable := by
    have husable := hs.usable
    cases base with
    | null | frame => exact husable
    | heap id => simpa only [Usable, commit_heap] using husable
  tiled := by
    obtain ⟨extent, cells, htiles, hshape⟩ := hs.tiled
    refine ⟨extent, _, ⟨by rw [commit_extents, htiles.allocated], htiles.chain.commit updates, ?_⟩, ?_⟩
    · intro entry hentry
      obtain ⟨old, hold, rfl⟩ := mem_map.mp hentry
      exact htiles.own old hold
    · rw [map_map, ← hshape]
      rfl

variable [Domain ι φ]

/-- A character is written into the cell that is found at its place. -/
theorem CharObject.write (hs : s.CharObject base step count) (hindex : index < count) {v : Value ι φ}
    (hv : retag (.int .char) v = v) : ∃ key cell weak, s.cells[key]? = some cell ∧
      (cell.base = base ∧ cell.offset = index * step) ∧ write
      (Address.shift ⟨base, 0⟩ (index * step : Nat)) (.singleton v) (.int .char) false s =
        .ok ⟨⟩ (s.commit [(key, merge weak cell.contents (.singleton v))]) := by
  obtain ⟨key, cell, hlocate, hbase, hscalar⟩ := hs.locate hindex
  have hupdates := updates_of_whole hlocate rfl
    (show cell.scalar.compatible (.int .char) = true by rw [hscalar]; rfl) (.singleton v) false
  refine ⟨key, cell, false || s.update = .weak || s.isSummary base, getElem?_of_locate hlocate, hbase, ?_⟩
  rw [Address.shift, Int.zero_add, Store.write, hupdates, hscalar, ValueSet.singleton, map_singleton, hv]
  rfl

theorem CharObject.writeChars (hs : s.CharObject base step count) (text : List UInt8)
    (hfits : index + text.length ≤ count) :
    ∃ s', writeChars ⟨base, 0⟩ .char step text index s = .ok ⟨⟩ s' := by
  induction text generalizing s index with
  | nil => exact ⟨s, rfl⟩
  | cons byte rest ih =>
    rw [length_cons] at hfits
    obtain ⟨key, cell, weak, -, -, hwrite⟩ := hs.write
      (v := .ofInt s.target .char (Number.signedWord 8 byte.toNat))
      (show index < count by omega) rfl
    obtain ⟨s', hrest⟩ := ih (hs.commit _) (show index + 1 + rest.length ≤ count by omega)
    exact ⟨s', bind_eq_ok.mpr ⟨s, s, rfl, bind_eq_ok.mpr ⟨⟨⟩, _, hwrite, hrest⟩⟩⟩

/-- A literal is laid out and written wherever no object stands under the number of its block. -/
theorem Ordered.literal_eq_ok (hordered : s.Ordered) (hunowned : s.heap.owned? site .literal = none)
    (hnew : ¬s.isAllocated (.heap s.heap.blocks.size)) (text : List UInt8) :
    let recorded : Store ι φ := { s with heap := (s.heap.allocate site (text.length + 1) .literal).2 }
    let laid := recorded.addObject (.heap s.heap.blocks.size)
      (.replicate (text.length + 1) ⟨s.target.intWidth .char, .int .char⟩)
    laid.CharObject (.heap s.heap.blocks.size) (s.target.intWidth .char) (text.length + 1) ∧ ∃ s',
      Store.writeChars ⟨.heap s.heap.blocks.size, 0⟩ .char (s.target.intWidth .char)
        (text ++ [0]) 0 laid = .ok ⟨⟩ s' ∧
      literal site text s = .ok ⟨.heap s.heap.blocks.size, 0⟩ s' := by
  intro recorded laid
  have husable : recorded.Usable (.heap s.heap.blocks.size) :=
    ⟨⟨text.length + 1, true, .literal, site, false⟩, by simp [recorded, Heap.allocate, hunowned, Heap.liveBlock]⟩
  have hobject : laid.CharObject (.heap s.heap.blocks.size) (s.target.intWidth .char) (text.length + 1) :=
    Ordered.charObject hordered husable (show s.extents[_]? = none by simpa [isAllocated] using hnew)
      (s.target.intWidth_pos .char)
  obtain ⟨s', hwritten⟩ := hobject.writeChars (text ++ [0]) (show 0 + _ ≤ _ by simp)
  have hlaid := allocate_of_new (s := recorded) hnew
    ⟨[⟨s.target.intWidth .char, .int .char⟩], text.length + 1⟩ (by simp) (by simp)
  rw [Layout.flatten, flatten_replicate_singleton] at hlaid
  refine ⟨hobject, s', hwritten, ?_⟩
  rw [literal_of_unowned hunowned]
  exact bind_eq_ok.mpr ⟨_, laid, hlaid, bind_eq_ok.mpr ⟨⟨⟩, s', hwritten, rfl⟩⟩

theorem heap_literal (s : Store ι φ) (site : NodeId) (text : List UInt8) :
    (leaves (literal site text) s).heap = (s.heap.allocate site (text.length + 1) .literal).2 := by
  rw [(sameRecords_literal s site text).1]
  split_ifs
  · exact heap_allocate _ _ _
  · rfl

theorem atomic_write (address : Address) (values : ValueSet ι φ) (scalar : Scalar) (forceWeak : Bool) :
    Atomic (write address values scalar forceWeak) := by
  intro s fault s' hrun
  unfold Store.write at hrun
  split at hrun <;> cases hrun
  rfl

theorem atomic_zeroFill (base : Base) : Atomic (zeroFill base : StoreM ι φ PUnit) := by
  intro s fault s' hrun
  unfold zeroFill at hrun
  repeat' split at hrun
  all_goals cases hrun
  all_goals rfl

/-- A literal is refused if another object stands under its number. -/
theorem Ordered.taken_of_literal_fails (hordered : s.Ordered) {text : List UInt8}
    (hfails : Fails (literal site text) s) :
    s.heap.owned? site .literal = none ∧ s.isAllocated (.heap s.heap.blocks.size) = true := by
  obtain ⟨fault, s', hrun⟩ := hfails
  cases howned : s.heap.owned? site .literal with
  | some id =>
    rw [literal_of_owned howned] at hrun
    cases hrun
  | none =>
    refine ⟨rfl, ?_⟩
    by_contra hnew
    obtain ⟨-, served, -, hserved⟩ := hordered.literal_eq_ok howned hnew text
    cases hserved.symm.trans hrun

/-- The operation fails. -/
def Operation.Refused (s : Store ι φ) : Operation ι φ → Prop
  | .allocate base layout => Fails (Store.allocate base layout) s
  | .malloc site layout => Fails (Store.malloc site layout) s
  | .literal site text => Fails (Store.literal site text) s
  | .free address => Fails (Store.free address) s
  | .write address values scalar forceWeak => Fails (Store.write address values scalar forceWeak) s
  | .zeroFill base => Fails (Store.zeroFill base) s
  | .markSummary _ => False

/-- A block is asked for that cannot be laid out: it has no units, or it is a literal and another
object stands under its number. -/
def Operation.Unlayable (s : Store ι φ) : Operation ι φ → Prop
  | .malloc _ layout => layout.units = [] ∨ layout.count = 0
  | .literal .. => s.isAllocated (.heap s.heap.blocks.size) = true
  | _ => False

/-- **What a refused operation leaves behind.** In any store that operations can build, a refused
operation leaves the very same store, unless it asks for a block that cannot be laid out. -/
theorem refused_leaves_iff (hreach : s.Reachable) {operation : Operation ι φ} (hrefused : operation.Refused s) :
    operation.after s = s ↔ ¬operation.Unlayable s := by
  cases operation with
  | allocate base layout => exact iff_of_true ((atomic_allocate base layout).leaves hrefused) id
  | malloc site layout =>
    obtain ⟨hunowned, hempty⟩ := empty_of_malloc_fails hrefused
    exact iff_of_false (ne_of_recorded hunowned (heap_malloc s site layout)) (not_not.mpr hempty)
  | literal site text =>
    obtain ⟨hunowned, htaken⟩ := hreach.ordered.taken_of_literal_fails hrefused
    exact iff_of_false (ne_of_recorded hunowned (heap_literal s site text)) (not_not.mpr htaken)
  | free address => exact iff_of_true ((atomic_free address).leaves hrefused) id
  | write address values scalar forceWeak =>
    exact iff_of_true ((atomic_write address values scalar forceWeak).leaves hrefused) id
  | zeroFill base => exact iff_of_true ((atomic_zeroFill base).leaves hrefused) id
  | markSummary base => exact hrefused.elim

/-- A block that is freed twice. -/
def freedTwice : List (Operation Int Double) := [.malloc 0 ⟨[⟨4, .int .int⟩], 1⟩, .free ⟨.heap 0, 0⟩]

/-- The second call to free is refused and leaves the store alone. -/
theorem freedTwice_refused :
    let s := freedTwice.foldl Operation.after (new .gcc .strong .concrete)
    (Operation.free ⟨.heap 0, 0⟩).Refused s ∧ (Operation.free ⟨.heap 0, 0⟩).after s = s := by
  have hreach := (Reachable.new .gcc .strong .concrete).foldl freedTwice
  have hrefused : (Operation.free ⟨.heap 0, 0⟩).Refused
      (freedTwice.foldl Operation.after (new .gcc .strong .concrete)) :=
    ⟨_, _, rfl⟩
  exact ⟨hrefused, (refused_leaves_iff hreach hrefused).mpr id⟩

/-- A block without units is refused, but counts as live, and the next block gets another number. -/
theorem emptyBlock_counted :
    let s : Store Int Double := new .gcc .strong .concrete
    let empty : Operation Int Double := .malloc 0 ⟨[], 0⟩
    empty.Refused s ∧ s.heap.liveCount = 0 ∧ (empty.after s).heap.liveCount = 1 ∧
      (answer? (Store.malloc 1 ⟨[⟨4, .int .int⟩], 1⟩) s).map (·.1) = some ⟨.heap 0, 0⟩ ∧
      (answer? (Store.malloc 1 ⟨[⟨4, .int .int⟩], 1⟩) (empty.after s)).map (·.1) = some ⟨.heap 1, 0⟩ :=
  ⟨⟨_, _, rfl⟩, rfl, rfl, rfl, rfl⟩

end CoreC.Store
