import CoreC.Proofs.Memory.Numbering
import CoreC.Proofs.Memory.Walks

/-! # Moving a pointer

A pointer is moved by walking from cell to cell, forwards or backwards, until its position lies in
the cell at hand. The walk ends after at most one step for each cell of the object, and its answer
is that of comparing the new offset with the size of the object. Cells are measured as distances
between addresses, so this asks for an object whose size is such a distance.
-/

namespace CoreC.Store

open Number Int Option Store Operation List

variable {ι φ : Type} {s : Store ι φ} {address : Address} {key : Nat} {cell : Cell ι φ} {position : Int}

/-- The walk from a cell ends after some number of steps, with an answer. -/
inductive Walked (s : Store ι φ) (address : Address) : Nat → Nat → Int → Except Fault Unit → Prop where
  | inside {key : Nat} {cell : Cell ι φ} {position : Int} (hcell : s.cells[key]? = some cell)
      (hnonneg : 0 ≤ position) (hinside : position < displacement cell.size) :
      Walked s address 0 key position (.ok ⟨⟩)
  | beforeStart {key : Nat} {cell : Cell ι φ} {position : Int} (hcell : s.cells[key]? = some cell)
      (hneg : position < 0) (hpred : cell.pred = noCell) :
      Walked s address 0 key position (.error (.memory (.movedBeforeStart address)))
  | pastEnd {key : Nat} {cell : Cell ι φ} {position : Int} (hcell : s.cells[key]? = some cell)
      (hnonneg : 0 ≤ position) (hpast : displacement cell.size ≤ position) (hsucc : cell.succ = noCell) :
      Walked s address 0 key position (.error (.memory (.movedPastEnd address)))
  | back {key steps : Nat} {cell before : Cell ι φ} {position : Int} {answer : Except Fault Unit}
      (hcell : s.cells[key]? = some cell) (hneg : position < 0) (hpred : cell.pred ≠ noCell)
      (hbefore : s.cells[cell.pred]? = some before)
      (hrest : Walked s address steps cell.pred (position + displacement before.size) answer) :
      Walked s address (steps + 1) key position answer
  | forth {key steps : Nat} {cell : Cell ι φ} {position : Int} {answer : Except Fault Unit}
      (hcell : s.cells[key]? = some cell) (hnonneg : 0 ≤ position) (hpast : displacement cell.size ≤ position)
      (hsucc : cell.succ ≠ noCell)
      (hrest : Walked s address steps cell.succ (position - displacement cell.size) answer) :
      Walked s address (steps + 1) key position answer

/-- A walk that ends gives its answer whenever it is allowed that many steps. -/
theorem Walked.walk_eq [DecidableEq ι] [BEq φ] [Domain ι φ] {steps : Nat} {answer : Except Fault Unit}
    (hwalked : s.Walked address steps key position answer) {fuel : Nat} (hfuel : steps < fuel) :
    s.walk address fuel key position = answer := by
  obtain _ | fuel := fuel
  · omega
  induction hwalked generalizing fuel with
  | inside hcell hnonneg hinside =>
    simp only [walk, cell, hcell, bind, Except.bind, if_neg (not_lt.mpr hnonneg),
      if_neg (not_le.mpr hinside)]
    rfl
  | beforeStart hcell hneg hpred =>
    simp only [walk, cell, hcell, bind, Except.bind, if_pos hneg, if_pos hpred]
  | pastEnd hcell hnonneg hpast hsucc =>
    simp only [walk, cell, hcell, bind, Except.bind, if_neg (not_lt.mpr hnonneg), if_pos hpast,
      if_pos hsucc]
  | back hcell hneg hpred hbefore _ ih =>
    obtain _ | fuel := fuel
    · omega
    rw [walk]
    simp only [cell, hcell, hbefore, bind, Except.bind, if_pos hneg, if_neg hpred]
    exact ih fuel (by omega)
  | forth hcell hnonneg hpast hsucc _ ih =>
    obtain _ | fuel := fuel
    · omega
    rw [walk]
    simp only [cell, hcell, bind, Except.bind, if_neg (not_lt.mpr hnonneg), if_pos hpast, if_neg hsucc]
    exact ih fuel (by omega)

/-- The answer to moving to a position in an object of so many bytes. -/
def landing (address : Address) (size : Nat) (position : Int) : Except Fault Unit :=
  if position < 0 then .error (.memory (.movedBeforeStart address))
  else if size ≤ position then .error (.memory (.movedPastEnd address))
  else .ok ⟨⟩

variable {cells : List (Nat × Cell ι φ)}

theorem Chain.eq_head (hchain : s.Chain key cells) : key = (cells.head?.map (·.1)).getD noCell := by
  cases hchain <;> rfl

theorem Chain.key_ne (hchain : s.Chain key cells) {entry : Nat × Cell ι φ}
    (hentry : entry ∈ cells) : entry.1 ≠ noCell := by
  obtain ⟨before, after, rfl⟩ := append_of_mem hentry
  obtain ⟨key, cell⟩ := entry
  cases hchain.of_append with
  | cons hkey => exact hkey

@[simp] theorem span_nil : span ([] : List (Nat × Cell ι φ)) = 0 := rfl

theorem Backed.pred_eq {previous key' : Nat} {cell' : Cell ι φ} {before after : List (Nat × Cell ι φ)}
    (hbacked : Backed previous (before ++ (key', cell') :: (key, cell) :: after)) : cell.pred = key' := by
  induction before generalizing previous with
  | nil => exact hbacked.2.1
  | cons entry rest ih => exact ih hbacked.2

section Walk

variable {first : Nat} {cells before after : List (Nat × Cell ι φ)} (hchain : s.Chain first cells)
  (hspan : span cells < 2 ^ 63)
include hchain hspan

/-- Forwards the walk follows the links to the end of the object. -/
theorem walked_forth (address : Address) (hcells : cells = before ++ (key, cell) :: after)
    (hnonneg : 0 ≤ position) : ∃ steps ≤ after.length, s.Walked address steps key position
      (landing address (span cells) (span before + position)) := by
  induction after generalizing before key cell position with
  | nil =>
    have htotal : span cells = span before + cell.size := by simp [hcells]
    have hsize : displacement cell.size = cell.size := signedWord_of_lt (by omega)
    obtain - | ⟨-, hcell, hrest⟩ := (hcells ▸ hchain).of_append
    refine ⟨0, Nat.zero_le _, ?_⟩
    rw [landing, if_neg (by omega)]
    split
    next hpast => exact .pastEnd hcell hnonneg (by omega) hrest.eq_head
    next hinside => exact .inside hcell hnonneg (by omega)
  | cons entry rest ih =>
    obtain ⟨key', cell'⟩ := entry
    have htotal : span cells = span before + cell.size + (cell'.size + span rest) := by
      simp [hcells, Nat.add_assoc]
    have hsize : displacement cell.size = cell.size := signedWord_of_lt (by omega)
    obtain - | ⟨-, hcell, hrest⟩ := (hcells ▸ hchain).of_append
    by_cases hinside : position < cell.size
    · refine ⟨0, Nat.zero_le _, ?_⟩
      rw [landing, if_neg (by omega), if_neg (by omega)]
      exact .inside hcell hnonneg (by omega)
    · have hcells' : cells = (before ++ [(key, cell)]) ++ (key', cell') :: rest := by simp [hcells]
      have hnext : cell.succ = key' := hrest.eq_head
      have hentry : (key', cell') ∈ cells := by simp [hcells]
      have hsame : ((span (before ++ [(key, cell)]) : Nat) : Int) + (position - cell.size) =
          span before + position := by
        simp only [span_append, span_cons, span_nil]
        omega
      obtain ⟨steps, hle, hwalked⟩ := ih hcells' (show 0 ≤ position - cell.size by omega)
      refine ⟨steps + 1, Nat.succ_le_succ hle, .forth hcell hnonneg (by omega) ?_ ?_⟩
      · rw [hnext]
        exact hchain.key_ne hentry
      · rw [hnext, hsize, ← hsame]
        exact hwalked

/-- Backwards it follows them to the start. -/
theorem walked_back (address : Address) (hbacked : Backed noCell cells)
    (hcells : cells = before ++ (key, cell) :: after) (hneg : position < 0) :
    ∃ steps ≤ before.length, s.Walked address steps key position
      (landing address (span cells) (span before + position)) := by
  have hentry : (key, cell) ∈ cells := by simp [hcells]
  have hcell := hchain.getElem? hentry
  induction before using reverseRecOn generalizing key cell after position with
  | nil =>
    refine ⟨0, Nat.le_refl _, ?_⟩
    rw [landing, if_pos (by simpa using hneg)]
    exact .beforeStart hcell hneg (hcells ▸ hbacked).1
  | append_singleton rest entry ih =>
    obtain ⟨key', cell'⟩ := entry
    have hcells' : cells = rest ++ (key', cell') :: (key, cell) :: after := by simp [hcells]
    have hentry' : (key', cell') ∈ cells := by simp [hcells']
    have hcell' : s.cells[key']? = some cell' := hchain.getElem? hentry'
    have hkey' : key' ≠ noCell := hchain.key_ne hentry'
    have hpred : cell.pred = key' := (hcells' ▸ hbacked).pred_eq
    have htotal : span cells = span rest + (cell'.size + (cell.size + span after)) := by simp [hcells']
    have hsize : displacement cell'.size = cell'.size := signedWord_of_lt (by omega)
    have hsame : ((span (rest ++ [(key', cell')]) : Nat) : Int) + position = span rest +
      (position + cell'.size) := by
      simp only [span_append, span_cons, span_nil]
      omega
    rw [hsame]
    by_cases hinside : 0 ≤ position + cell'.size
    · refine ⟨1, by simp, .back hcell hneg (hpred ▸ hkey') (hpred ▸ hcell') ?_⟩
      rw [landing, if_neg (by omega), if_neg (by omega), hpred, hsize]
      exact .inside hcell' hinside (by omega)
    · obtain ⟨steps, hle, hwalked⟩ := ih hcells' (not_le.mp hinside) hentry' hcell'
      refine ⟨steps + 1, by simpa using hle, .back hcell hneg (hpred ▸ hkey') (hpred ▸ hcell') ?_⟩
      rw [hpred, hsize]
      exact hwalked

end Walk

variable {base : Base} {extent : Extent}

/-- From any cell of an object the walk ends, with the answer of the bounds. -/
theorem Tiles.walked {cells before after : List (Nat × Cell ι φ)} (htiles : s.Tiles base extent cells)
    (hordered : s.Ordered) (hbacked : Backed noCell cells) (hsize : extent.size < 2 ^ 63)
    (hcells : cells = before ++ (key, cell) :: after) (address : Address) (position : Int) :
    ∃ steps ≤ s.cells.size, s.Walked address steps key position
      (landing address extent.size (span before + position)) := by
  have hlength := htiles.chain.length_le_size
  have hcount : cells.length = before.length + (after.length + 1) := by simp [hcells]
  rw [← htiles.span_eq hordered] at hsize ⊢
  by_cases hneg : position < 0
  · obtain ⟨steps, hle, hwalked⟩ := walked_back htiles.chain hsize address hbacked hcells hneg
    exact ⟨steps, by omega, hwalked⟩
  · obtain ⟨steps, hle, hwalked⟩ := walked_forth htiles.chain hsize address hcells (not_lt.mp hneg)
    exact ⟨steps, by omega, hwalked⟩

theorem Tiles.size_pos (htiles : s.Tiles base extent cells) (hordered : s.Ordered) :
    0 < extent.size := by
  have hfirst := (hordered.extent htiles.allocated).1
  have hspan := htiles.span_eq hordered
  cases cells with
  | nil =>
    have hnone := htiles.chain.eq_head
    rw [head?_nil, map_none, getD_none, noCell] at hnone
    omega
  | cons entry rest =>
    have hsize := (htiles.own entry mem_cons_self).2
    rw [span_cons] at hspan
    omega

variable [DecidableEq ι] [BEq φ] [Domain ι φ]

/-- Moving a pointer compares its offset before and after with the size of the object. -/
theorem Sound.movePointer_eq (hs : s.Sound) (hextent : s.extents[base]? = some extent) (husable : s.Usable base)
    (hmeasured : extent.size < 2 ^ 63) (offset delta : Int) :
    s.movePointer ⟨base, offset⟩ delta =
      if offset < 0 ∨ extent.size < offset then .error (.memory (.outOfBounds ⟨base, offset⟩))
      else (landing ⟨base, offset⟩ extent.size (offset + delta)).map fun _ => ⟨base, offset + delta⟩ := by
  obtain ⟨cells, htiles, hbacked⟩ := hs.tiled hextent
  have hsize := htiles.size_pos hs.ordered
  have hpastEnd : (s.extents[base]?.any fun extent => 0 < offset && offset = extent.size) =
      decide (offset = extent.size) := by
    rw [hextent, any_some, Bool.eq_iff_iff]
    simp only [Bool.and_eq_true, decide_eq_true_eq]
    omega
  have hwalk start extra (hinside : start < extent.size) (hsame : start + extra = offset) :
      ∃ place, s.locate ⟨base, start⟩ = .ok place ∧ ∀ fuel, s.cells.size < fuel →
        s.walk ⟨base, offset⟩ fuel place.key (place.within + extra + delta) =
          landing ⟨base, offset⟩ extent.size (offset + delta) := by
    obtain ⟨before, key, cell, after, hcells, hle, -, hlocate⟩ := htiles.locate hs.ordered husable hinside
    refine ⟨_, hlocate, fun fuel hfuel => ?_⟩
    obtain ⟨steps, hsteps, hwalked⟩ := htiles.walked hs.ordered hbacked hmeasured hcells ⟨base, offset⟩
      ((start - span before : Nat) + extra + delta)
    rw [hwalked.walk_eq (by omega)]
    congr 1
    omega
  unfold movePointer
  simp only [hpastEnd, decide_eq_true_eq]
  -- A pointer one past the end is looked up at the byte before it.
  by_cases hend : offset = extent.size
  · obtain ⟨place, hlocate, hlands⟩ := hwalk (extent.size - 1) 1 (by omega) (by omega)
    have hbefore : Address.shift ⟨base, offset⟩ (-1) = ⟨base, (extent.size - 1 : Nat)⟩ := by
      simp only [Address.shift, Address.mk.injEq, true_and]
      omega
    simp only [if_pos hend, hbefore, hlocate, bind, Except.bind]
    rw [hlands _ (by omega), if_neg (by omega)]
    cases landing _ _ _ <;> rfl
  by_cases hinside : 0 ≤ offset ∧ offset < extent.size
  · obtain ⟨place, hlocate, hlands⟩ := hwalk offset.toNat 0 (by omega) (by omega)
    rw [Int.toNat_of_nonneg hinside.1] at hlocate
    simp only [Int.add_zero] at hlands
    simp only [if_neg hend, hlocate, bind, Except.bind]
    rw [hlands _ (by omega), if_neg (by omega)]
    cases landing _ _ _ <;> rfl
  · have hrefused : s.locate ⟨base, offset⟩ = .error (.memory (.outOfBounds ⟨base, offset⟩)) := by
      rw [locate_of_usable husable, hextent]
      exact if_pos (by omega)
    simp only [if_neg hend, hrefused, bind, Except.bind]
    rw [if_pos (by omega)]

/-- **Moving a pointer is a bounds check.** Whatever operations built the store, if every unit that
was asked for takes bytes: a pointer into an object that may be accessed, or to its end, moves to
any offset inside the object, every other move is a fault, and the walk from any cell of the
object, by any distance, ends after at most as many steps as there are cells. -/
theorem movePointer_checks_bounds (target : Target) (update : UpdatePolicy) (heap : HeapPolicy)
    (operations : List (Operation ι φ))
    (hsolid : ∀ operation ∈ operations, operation.Uses fun unit => 0 < unit.size) {base : Base} {extent : Extent} :
    let s := operations.foldl after (new target update heap)
    s.extents[base]? = some extent → s.Usable base → extent.size < 2 ^ 63 →
      (∀ offset delta, s.movePointer ⟨base, offset⟩ delta = .ok ⟨base, offset + delta⟩ ↔
        (0 ≤ offset ∧ offset ≤ extent.size) ∧ 0 ≤ offset + delta ∧ offset + delta < extent.size) ∧
      (∀ offset delta, s.movePointer ⟨base, offset⟩ delta ≠ .ok ⟨base, offset + delta⟩ →
        ∃ fault, s.movePointer ⟨base, offset⟩ delta = .error (.memory fault)) ∧
      ∀ address key cell position, s.cells[key]? = some cell → cell.base = base →
        ∃ steps ≤ s.cells.size, ∃ answer, s.Walked address steps key position answer := by
  intro s hextent husable hmeasured
  have hs : s.Sound := (sound_new target update heap).foldl operations hsolid
  have hmove := hs.movePointer_eq hextent husable hmeasured
  refine ⟨fun offset delta => ?_, fun offset delta => ?_, fun address key cell position hcell hbase => ?_⟩
  · rw [hmove, landing]
    split_ifs with houtside hbefore hpast <;> simp [Except.map] <;> omega
  · rw [hmove, landing]
    split_ifs with houtside hbefore hpast <;> simp [Except.map]
  · obtain ⟨cells, htiles, hbacked⟩ := hs.tiled hextent
    obtain ⟨others, hthreads⟩ := hs.threads hextent
    obtain rfl := htiles.chain.unique hthreads.forward
    obtain ⟨before, after, hcells⟩ := append_of_mem ((hthreads.own key cell).mpr ⟨hcell, hbase⟩)
    obtain ⟨steps, hsteps, hwalked⟩ := htiles.walked hs.ordered hbacked hmeasured hcells address position
    exact ⟨steps, hsteps, _, hwalked⟩

/-- From its end the pairs' last byte is reached, from their start the end is not, and the walk
back to the start ends. -/
theorem padded_moves :
    let s := padded.foldl after (new .gcc .strong .concrete)
    (∀ operation ∈ padded, operation.Uses fun unit => 0 < unit.size) ∧
      s.movePointer ⟨.frame 1 "p", 16⟩ (-1) = .ok ⟨.frame 1 "p", 15⟩ ∧
      (∃ fault, s.movePointer ⟨.frame 1 "p", 0⟩ 16 = .error (.memory fault)) ∧
      ∃ steps ≤ s.cells.size, ∃ answer, s.Walked ⟨.frame 1 "p", 16⟩ steps 13 (-12) answer := by
  intro s
  have hsolid : ∀ operation ∈ padded, operation.Uses fun unit => 0 < unit.size := by
    simp [padded, Uses]
  have hextent : s.extents[Base.frame 1 "p"]? = some ⟨1, 16, false⟩ := rfl
  obtain ⟨hmoves, hfaults, hends⟩ :=
    movePointer_checks_bounds .gcc .strong .concrete padded hsolid hextent trivial (by decide)
  obtain ⟨cell, hcell, hbase⟩ : ∃ cell, s.cells[13]? = some cell ∧ cell.base = .frame 1 "p" := ⟨_, rfl, rfl⟩
  refine ⟨hsolid, (hmoves 16 (-1)).mpr (by decide), hfaults 0 16 ?_, hends _ 13 cell (-12) hcell hbase⟩
  intro hmoved
  exact absurd ((hmoves 0 16).mp hmoved) (by decide)

end CoreC.Store
