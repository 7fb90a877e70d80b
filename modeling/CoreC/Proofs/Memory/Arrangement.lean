import CoreC.Proofs.Domain.IntegerPattern
import CoreC.Proofs.Memory.Separation

/-! # The arrangement of objects

The layout of an object is kept three times: by its cells on the tape, by its extent, and by
the links between its cells. Where all units take bytes, the three agree after any operations.
The cells leave no byte of the tape out, those of an object are the ones inside its extent, and
the links lead through them in both directions. So every byte of an object is found in the one
cell that it lies in.
-/

namespace CoreC.Store

open Operation

variable {ι φ : Type}

/-- No cell goes beyond the end of the tape, and no byte before the end is outside of cells. -/
structure Full (cells : Std.TreeMap Nat (Cell ι φ)) (next : Nat) : Prop where
  end_le : ∀ {key cell}, cells[key]? = some cell → key + cell.size ≤ next
  covers : ∀ {position}, 0 < position → position < next →
    ∃ key cell, cells[key]? = some cell ∧ key ≤ position ∧ position < key + cell.size

variable {cells : Std.TreeMap Nat (Cell ι φ)} {next : Nat}

/-- A unit at the end of the tape leaves the cells that take bytes where they are. -/
theorem Full.link (hfull : Full cells next) (base : Base) (unit : StorageUnit)
    (offset previous : Nat) :
    Full (Tape.link cells base unit next offset previous) (next + unit.size) where
  end_le {key cell} hcell := by
    rcases Tape.cases_link hcell with ⟨rfl, -, -, hsize, -⟩ | ⟨-, old, hold, -, -, hsize, -⟩
    · omega
    · have hend := hfull.end_le hold
      omega
  covers {position} hpos hlt := by
    by_cases hnew : next ≤ position
    · exact ⟨next, _, by rw [Tape.getElem?_link, if_pos rfl], hnew, hlt⟩
    · obtain ⟨key, cell, hcell, hle, hinside⟩ := hfull.covers hpos (by omega)
      have hkey : key ≠ next := by omega
      refine ⟨key, { cell with succ := if key = previous then next else cell.succ }, ?_, hle, hinside⟩
      rw [Tape.getElem?_link, if_neg hkey]
      split <;> simp [hcell]

theorem Full.appendCells (units : List StorageUnit) (hfull : Full cells next) (base : Base)
    (offset previous : Nat) :
    let appended := Store.appendCells base units cells next offset previous
    Full appended.1 appended.2.1 := by
  induction units generalizing cells next offset previous with
  | nil => exact hfull
  | cons unit rest ih => exact ih (hfull.link base unit offset previous) _ _

section Operations

variable [DecidableEq ι] [BEq φ] {s : Store ι φ}

theorem Full.commit (hfull : Full s.cells s.next)
    (updates : List (Nat × ValueSet ι φ)) : Full (s.commit updates).cells (s.commit updates).next where
  end_le {key cell} hcell := by
    obtain ⟨old, hold, rfl⟩ := exists_of_getElem?_commit hcell
    have hend := hfull.end_le hold
    rw [commit_next]
    exact hend
  covers hpos hlt := by
    rw [commit_next] at hlt
    obtain ⟨key, cell, hcell, hinside⟩ := hfull.covers hpos hlt
    refine ⟨key, { cell with contents := settle key updates cell.contents }, ?_, hinside⟩
    rw [getElem?_commit, hcell]
    rfl

variable [Domain ι φ]

theorem Operation.full_after (operation : Operation ι φ) (hfull : Full s.cells s.next) :
    Full (operation.after s).cells (operation.after s).next := by
  have hR : Allows (fun _ => True) fun s s' : Store ι φ => Full s.cells s.next → Full s'.cells s'.next :=
    { toEvolution := .implies _
      recorded := fun _ _ _ _ => id
      freed := fun _ => id
      summary := fun _ _ => id
      object := fun _ _ _ _ hfull => hfull.appendCells _ _ _ _
      written := fun _ _ hfull => hfull.commit _ }
  exact hR.after (fun _ => trivial) (fun _ updates hfull => hfull.commit updates)
    operation.uses_trivial s hfull

theorem Reachable.full (hreach : s.Reachable) : Full s.cells s.next := by
  induction hreach with
  | new =>
    refine ⟨fun hcell => by simp [Store.new] at hcell, fun hpos hlt => ?_⟩
    simp only [Store.new] at hlt
    omega
  | after operation _ ih => exact operation.full_after ih

theorem Operation.sound_after {operation : Operation ι φ}
    (hsolid : operation.Uses fun unit => 0 < unit.size) (hs : s.Sound) :
    (operation.after s).Sound := by
  have hR : Allows (fun unit => 0 < unit.size) fun s s' : Store ι φ => s.Sound → s'.Sound :=
    { toEvolution := .implies _
      recorded := fun _ _ _ _ hs => hs.withHeap _ _
      freed := fun _ hs => hs.withHeap _ _
      summary := fun _ base hs => hs.markSummary base
      object := fun _ hnew hunits hpos hs => hs.addObject hnew hunits hpos
      written := fun _ _ hs => hs.commit _ }
  exact hR.after (fun t => t.intWidth_pos .char) (fun _ updates hs => hs.commit updates) hsolid s hs

theorem Sound.foldl (operations : List (Operation ι φ))
    (hsolid : ∀ operation ∈ operations, operation.Uses fun unit => 0 < unit.size) (hs : s.Sound) :
    (operations.foldl after s).Sound := by
  induction operations generalizing s with
  | nil => exact hs
  | cons operation rest ih =>
    exact ih (fun other hother => hsolid other (List.mem_cons_of_mem _ hother))
      (operation.sound_after (hsolid operation List.mem_cons_self) hs)

end Operations

/-- The cells of an object in order: they fill its extent, they are the cells that belong to
it and the cells that lie there, and links lead through them in both directions. -/
structure Threads (s : Store ι φ) (base : Base) (extent : Extent) (cells : List (Nat × Cell ι φ)) :
    Prop where
  laid : Laid extent.first cells (extent.first + extent.size)
  own : ∀ key cell, (key, cell) ∈ cells ↔ s.cells[key]? = some cell ∧ cell.base = base
  inside : ∀ key cell, (key, cell) ∈ cells ↔
    s.cells[key]? = some cell ∧ extent.first ≤ key ∧ key < extent.first + extent.size
  offset_eq : ∀ entry ∈ cells, entry.1 = extent.first + entry.2.offset
  forward : s.Chain extent.first cells
  backward : Backed noCell cells

/-- The cells, the extents and the links of a store agree, and so does the search for a byte. -/
structure Arranged (s : Store ι φ) : Prop where
  apart : ∀ {key other : Nat} {cell held : Cell ι φ}, s.cells[key]? = some cell →
    s.cells[other]? = some held → key ≠ other → key + cell.size ≤ other ∨ other + held.size ≤ key
  tiles : ∀ position, (∃ key cell, s.cells[key]? = some cell ∧ key ≤ position ∧ position < key + cell.size) ↔
    0 < position ∧ position < s.next
  object : ∀ {base extent}, s.extents[base]? = some extent → ∃ cells, s.Threads base extent cells
  found : ∀ {base extent}, s.extents[base]? = some extent → s.Usable base →
    ∀ offset : Nat, offset < extent.size → ∃ key cell,
      s.locate ⟨base, offset⟩ = .ok ⟨key, cell, extent.first + offset - key⟩ ∧
      s.cells[key]? = some cell ∧ cell.base = base ∧
      key ≤ extent.first + offset ∧ extent.first + offset < key + cell.size
  refused : ∀ {base : Base} {extent : Extent}, s.extents[base]? = some extent → s.Usable base →
    ∀ offset : Int, offset < 0 ∨ extent.size ≤ offset →
      s.locate ⟨base, offset⟩ = .error (.memory (.outOfBounds ⟨base, offset⟩))

/-- An object's cells are those that lie in its extent. -/
theorem Sound.threads {s : Store ι φ} (hs : s.Sound) {base : Base} {extent : Extent}
    (hextent : s.extents[base]? = some extent) : ∃ cells, s.Threads base extent cells := by
  obtain ⟨cells, htiles, hbacked⟩ := hs.tiled hextent
  have hlaid := htiles.laid hs.ordered
  have hforth {entry} (hentry : entry ∈ cells) :
      s.cells[entry.1]? = some entry.2 ∧ Placed extent entry.1 entry.2 ∧ 0 < entry.2.size := by
    have hcell := htiles.chain.getElem? hentry
    obtain ⟨owner, howner, hplaced⟩ := hs.ordered.placed hcell
    rw [(htiles.own entry hentry).1, hextent] at howner
    cases howner
    exact ⟨hcell, hplaced, hs.solid hcell⟩
  -- the cell of the chain that covers the first byte of a cell is that cell
  have hback {key} {cell} (hcell : s.cells[key]? = some cell)
      (hfirst : extent.first ≤ key) (hlast : key < extent.first + extent.size) : (key, cell) ∈ cells := by
    obtain ⟨before, start, held, after, rfl, -, hle, hlt⟩ := hlaid.exists_cell hfirst hlast
    have hheld : s.cells[start]? = some held :=
      htiles.chain.getElem? (List.mem_append_right before List.mem_cons_self)
    have hsame : start = key := by
      by_contra hne
      have hapart := hs.ordered.apart hheld hcell (by omega)
      omega
    subst hsame
    rw [hcell] at hheld
    cases hheld
    simp
  refine ⟨cells, hlaid, fun key cell => ⟨fun hentry => ?_, fun ⟨hcell, hbase⟩ => ?_⟩,
    fun key cell => ⟨fun hentry => ?_, fun ⟨hcell, hfirst, hlast⟩ => hback hcell hfirst hlast⟩,
    fun entry hentry => (hforth hentry).2.1.offset_eq, htiles.chain, hbacked⟩
  · exact ⟨(hforth hentry).1, (htiles.own _ hentry).1⟩
  · obtain ⟨owner, howner, hplaced⟩ := hs.ordered.placed hcell
    rw [hbase, hextent] at howner
    cases howner
    have hend := hplaced.end_le
    have hsize := hs.solid hcell
    exact hback hcell hplaced.first_le (by omega)
  · obtain ⟨hcell, hplaced, hsize⟩ := hforth hentry
    have hend := hplaced.end_le
    exact ⟨hcell, hplaced.first_le, by omega⟩

theorem Sound.arranged {s : Store ι φ} (hs : s.Sound) (hfull : Full s.cells s.next) : s.Arranged where
  apart {key other cell held} hcell hheld hne := by
    rcases Nat.lt_or_gt_of_ne hne with hlt | hlt
    · exact .inl (hs.ordered.apart hcell hheld hlt)
    · exact .inr (hs.ordered.apart hheld hcell hlt)
  tiles position := by
    refine ⟨fun ⟨key, cell, hcell, hle, hlt⟩ => ?_, fun ⟨hpos, hlt⟩ => hfull.covers hpos hlt⟩
    have hkey := hs.ordered.key_pos hcell
    have hend := hfull.end_le hcell
    omega
  object := hs.threads
  found {base extent} hextent husable offset hoffset := by
    obtain ⟨cells, htiles, -⟩ := hs.tiled hextent
    obtain ⟨before, key, cell, after, rfl, hle, hlt, hlocate⟩ := htiles.locate hs.ordered husable hoffset
    have hkey : key = extent.first + span before := (htiles.laid hs.ordered).of_append.1
    have hentry : (key, cell) ∈ before ++ (key, cell) :: after := by simp
    refine ⟨key, cell, ?_, htiles.chain.getElem? hentry, (htiles.own _ hentry).1, by omega, by omega⟩
    rw [hlocate]
    congr 2
    omega
  refused {base extent} hextent husable offset houtside := by
    rw [locate_of_usable husable, hextent]
    exact if_pos houtside

variable [DecidableEq ι] [BEq φ] [Domain ι φ]

/-- **Cells, extents and links agree.** Whatever operations built the store, granted or refused:
if every unit that was asked for takes bytes, its cells fill the tape without overlap, each
object has exactly the cells inside its extent, linked in both directions, and each of its
bytes is found in the one cell that it lies in while every other offset is out of bounds. -/
theorem arranged_after_operations (target : Target) (update : UpdatePolicy) (heap : HeapPolicy)
    (operations : List (Operation ι φ))
    (hsolid : ∀ operation ∈ operations, operation.Uses fun unit => 0 < unit.size) :
    (operations.foldl after (new target update heap)).Arranged := by
  exact ((sound_new target update heap).foldl operations hsolid).arranged
    ((Reachable.new target update heap).foldl operations).full

/-- Two padded pairs on a frame and a block on the heap, which is written to and freed. -/
def padded : List (Operation Int Double) :=
  [.allocate (.frame 1 "p") ⟨[⟨4, .int .char⟩, ⟨4, .int .int⟩], 2⟩, .malloc 0 ⟨[⟨8, .pointer 4⟩], 3⟩,
   .write ⟨.frame 1 "p", 6⟩ (.singleton (.int 7 .int)) (.int .int) false, .free ⟨.heap 0, 0⟩]

/-- Byte 14 of the pairs is found in their last cell, and byte 16 is not there. -/
theorem padded_arranged :
    let s := padded.foldl after (new .gcc .strong .concrete)
    (∀ operation ∈ padded, operation.Uses fun unit => 0 < unit.size) ∧ s.Arranged ∧
      (∃ cell, s.locate ⟨.frame 1 "p", 14⟩ = .ok ⟨13, cell, 2⟩) ∧
      s.locate ⟨.frame 1 "p", 16⟩ = .error (.memory (.outOfBounds ⟨.frame 1 "p", 16⟩)) := by
  intro s
  have hsolid : ∀ operation ∈ padded, operation.Uses fun unit => 0 < unit.size := by
    simp [padded, Uses]
  have harranged := arranged_after_operations .gcc .strong .concrete padded hsolid
  have hextent : s.extents[Base.frame 1 "p"]? = some ⟨1, 16, false⟩ := rfl
  exact ⟨hsolid, harranged, ⟨_, rfl⟩, harranged.refused hextent trivial 16 (.inr (by decide))⟩

end CoreC.Store
