import CoreC.Memory.Environment
import CoreC.Proofs.Effect

/-! # Frames and the names they bind

Frames get numbers in order, each after the one that it is inside of. A name is bound in a frame
that did not bind it, and neither the frame's block nor its parent ever changes.
-/

namespace CoreC

open Std List

variable {declared : NodeId → Option CType} {start : FrameId} {frame : Frame}

/-- What a frame is an activation of, and inside which other frame. -/
def Frame.activation (frame : Frame) : NodeId × Option FrameId := (frame.scope, frame.parent)

namespace Environment

variable {e e' : Environment} {id : FrameId} {name : String} {b : Binding} {fresh : Bool}

/-! ## Chains -/

theorem mem_of_findAlong {α : Type} {found : Frame → Option α} {chain : List (FrameId × Option Frame)}
    {a : α} (hfind : findAlong found chain = .ok (some (id, a))) :
    ∃ frame, (id, some frame) ∈ chain ∧ found frame = some a := by
  induction chain with
  | nil => cases hfind
  | cons entry outward ih =>
    obtain ⟨number, frame⟩ := entry
    cases frame with
    | none => cases hfind
    | some frame =>
      unfold findAlong at hfind
      split at hfind
      next hfound =>
        cases hfind
        exact ⟨frame, mem_cons_self, hfound⟩
      next =>
        obtain ⟨other, hother, hfound⟩ := ih hfind
        exact ⟨other, mem_cons_of_mem _ hother, hfound⟩

theorem getElem?_of_mem_chain {fuel : Nat} (hmem : (id, some frame) ∈ e.chain fuel start) :
    e.frames[id]? = some frame := by
  induction fuel generalizing start with
  | zero => cases hmem
  | succ fuel ih =>
    unfold chain at hmem
    split at hmem
    · simp at hmem
    next found hfound =>
      rcases mem_cons.mp hmem with heq | houtward
      · cases heq
        exact hfound
      · split at houtward
        · exact ih houtward
        · cases houtward

/-- Frames come after those that they are inside of. -/
def Ranked (e : Environment) : Prop :=
  ∀ {id : FrameId} {frame : Frame}, e.frames[id]? = some frame → ∀ parent ∈ frame.parent, parent < id

/-- Where parents come before their children, a chain leads to earlier frames only. -/
theorem le_of_mem_chain (hranked : e.Ranked) {fuel : Nat} {frame : Option Frame}
    (hmem : (id, frame) ∈ e.chain fuel start) : id ≤ start := by
  induction fuel generalizing start with
  | zero => cases hmem
  | succ fuel ih =>
    unfold chain at hmem
    split at hmem
    · simp only [mem_singleton, Prod.mk.injEq] at hmem
      exact Nat.le_of_eq hmem.1
    next found hfound =>
      rcases mem_cons.mp hmem with heq | houtward
      · cases heq
        exact Nat.le_refl _
      · split at houtward
        next parent hparent =>
          exact Nat.le_of_lt (Nat.lt_of_le_of_lt (ih houtward) (hranked hfound parent hparent))
        next => cases houtward

/-! ## Binding a name -/

/-- The environment with a name bound in a frame that it has. -/
def bindName (e : Environment) (b : Binding) (frame : Frame) : Environment :=
  { e with frames := e.frames.insert b.frame { frame with types := (b.name, b.type) :: frame.types } }

/-- The binding came about just now, in a frame that did not bind the name. -/
def Adds (e e' : Environment) (b : Binding) : Prop :=
  ∃ frame, e.frames[b.frame]? = some frame ∧ frame.types.lookup b.name = none ∧ e' = e.bindName b frame

theorem declare_eq_ok {type : CType} (hdeclare : e.declare id name type = .ok ((b, fresh), e')) :
    b.frame = id ∧ b.name = name ∧ ((fresh = true ∧ e.Adds e' b) ∨ (fresh = false ∧ e' = e ∧
      ∃ frame, e.frames[id]? = some frame ∧ frame.types.lookup name = some b.type)) := by
  obtain ⟨frame, hframe, hdeclare⟩ := exists_of_bind_ok hdeclare
  have hid : e.frames[id]? = some frame := by
    unfold Environment.frame at hframe
    split at hframe <;> cases hframe
    assumption
  split at hdeclare
  next bound hbound =>
    cases hdeclare
    exact ⟨rfl, rfl, .inr ⟨rfl, rfl, frame, hid, hbound⟩⟩
  next hunbound =>
    cases hdeclare
    exact ⟨rfl, rfl, .inl ⟨rfl, frame, hid, hunbound, rfl⟩⟩

/-- A name that a frame does not bind is bound there. -/
theorem declare_of_free (hframe : e.frames[id]? = some frame) (hfree : frame.types.lookup name = none) (type : CType) :
    e.declare id name type = .ok ((⟨id, name, type⟩, true), e.bindName ⟨id, name, type⟩ frame) := by
  unfold declare Environment.frame
  simp only [hframe, hfree, bind, Except.bind]
  rfl

theorem resolve_eq_ok (hresolve : e.resolve id name declared = .ok ((b, fresh), e')) :
    (fresh = true ∧ b.name = name ∧ (∃ frame, (b.frame, some frame) ∈ e.chainOf id) ∧ e.Adds e' b) ∨
      (fresh = false ∧ e' = e) := by
  unfold resolve at hresolve
  split at hresolve
  · cases hresolve
    exact .inr ⟨rfl, rfl⟩
  · obtain ⟨found, hfound, hresolve⟩ := exists_of_bind_ok hresolve
    split at hresolve
    next holder type =>
      obtain ⟨rfl, hname, hnew | hold⟩ := declare_eq_ok hresolve
      · obtain ⟨frame, hmem, -⟩ := mem_of_findAlong hfound
        exact .inl ⟨hnew.1, hname, ⟨frame, hmem⟩, hnew.2⟩
      · exact .inr ⟨hold.1, hold.2.1⟩
    next => cases hresolve

/-! ## Further frames -/

/-- The environment with a further frame. -/
def grown (e : Environment) (scope : NodeId) (parent : Option FrameId) : Environment :=
  { e with frames := e.frames.insert e.frames.size ⟨scope, parent, []⟩ }

variable (hbelow : ∀ id ∈ e.frames, id < e.frames.size) {scope : NodeId} {parent : Option FrameId}

include hbelow

theorem size_grown : (e.grown scope parent).frames.size = e.frames.size + 1 := by
  rw [grown, TreeMap.size_insert, if_neg]
  exact fun hmem => Nat.lt_irrefl _ (hbelow _ hmem)

theorem below_grown : ∀ id ∈ (e.grown scope parent).frames, id < (e.grown scope parent).frames.size := by
  intro id hid
  rw [size_grown hbelow]
  rcases TreeMap.mem_insert.mp hid with hsame | hold
  · rw [← Std.compare_eq_iff_eq.mp hsame]
    exact Nat.lt_succ_self _
  · exact Nat.lt_succ_of_lt (hbelow id hold)

theorem getElem?_grown_of_some (hframe : e.frames[id]? = some frame) :
    (e.grown scope parent).frames[id]? = some frame := by
  have hid := hbelow id (TreeMap.mem_iff_isSome_getElem?.mpr (hframe ▸ rfl))
  rw [grown, TreeMap.getElem?_insert, if_neg, hframe]
  rw [Std.compare_eq_iff_eq]
  exact Nat.ne_of_gt hid

omit hbelow in
theorem Ranked.grown (he : e.Ranked) (hparent : ∀ outer ∈ parent, outer < e.frames.size) :
    (e.grown scope parent).Ranked := by
  intro id frame hframe
  simp only [Environment.grown, TreeMap.getElem?_insert, Std.compare_eq_iff_eq] at hframe
  split at hframe
  next hsame =>
    cases hframe
    exact hsame ▸ hparent
  next => exact he hframe

end Environment

end CoreC
