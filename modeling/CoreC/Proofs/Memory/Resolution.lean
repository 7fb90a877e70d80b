import CoreC.Proofs.Memory.Environment
import Mathlib.Data.List.Infix
import Mathlib.Logic.Relation

/-! # What names stand for

A binding is never changed. A name that is bound in a frame can be seen from the frames inside of
it, up to the nearest one that binds the name as well. The globals are seen from everywhere, where
no frame on the way outward binds the name.
-/

namespace CoreC

open List Option Std

variable {name : String} {chain : List (FrameId × Option Frame)}

/-- A frame after the binding was made. -/
def Binding.enter (b : Binding) (id : FrameId) (frame : Frame) : Frame :=
  if id = b.frame then { frame with types := (b.name, b.type) :: frame.types } else frame

namespace Binding

variable (b : Binding) (id : FrameId) (frame : Frame)

@[simp] theorem enter_scope : (b.enter id frame).scope = frame.scope := by
  unfold enter
  split <;> rfl

@[simp] theorem enter_parent : (b.enter id frame).parent = frame.parent := by
  unfold enter
  split <;> rfl

theorem lookup_enter (name : String) : (b.enter id frame).types.lookup name =
    if id = b.frame ∧ name = b.name then some b.type else frame.types.lookup name := by
  unfold enter
  by_cases hid : id = b.frame
  · by_cases hname : name = b.name
    · simp [hid, hname]
    · simp [hid, hname, lookup_cons, beq_false_of_ne hname]
  · simp [hid]

end Binding

namespace Environment

variable {e e' : Environment} {b : Binding}

/-- No frame of the list binds the name. -/
def Unbound (name : String) (chain : List (FrameId × Option Frame)) : Prop :=
  ∀ entry ∈ chain, ∀ frame ∈ entry.2, frame.types.lookup name = none

/-- The frame is on the way outward, and neither it nor a nearer one binds the name. -/
def Exposes (e : Environment) (start id : FrameId) (name : String) : Prop :=
  ∃ nearer, nearer <+: e.chainOf start ∧ id ∈ nearer.map Prod.fst ∧ Unbound name nearer

/-- A frame of a chain after a name was bound. -/
def rebind (b : Binding) (entry : FrameId × Option Frame) : FrameId × Option Frame :=
  (entry.1, entry.2.map (b.enter entry.1))

/-- A chain lists frames as they are. -/
theorem mem_chainOf {start : FrameId} :
    ∀ entry ∈ e.chainOf start, ∀ found ∈ entry.2, e.frames[entry.1]? = some found := by
  rintro ⟨number, held⟩ hentry found hfound
  cases hfound
  exact getElem?_of_mem_chain hentry

section Bound

variable {frame : Frame} (hframe : e.frames[b.frame]? = some frame)

include hframe

theorem getElem?_bindName (id : FrameId) : (e.bindName b frame).frames[id]? = (rebind b (id, e.frames[id]?)).2 := by
  unfold bindName rebind Binding.enter
  simp only [Std.TreeMap.getElem?_insert, Std.compare_eq_iff_eq]
  split
  next hid =>
    subst hid
    simp [hframe]
  next hid => simp [Ne.symm hid]

theorem chain_bindName (fuel : Nat) (id : FrameId) :
    (e.bindName b frame).chain fuel id = (e.chain fuel id).map (rebind b) := by
  induction fuel generalizing id with
  | zero => rfl
  | succ fuel ih =>
    unfold Environment.chain
    rw [getElem?_bindName hframe]
    cases hid : e.frames[id]? with
    | none => rfl
    | some found =>
      -- Binding a name moves no frame, so the chain goes on to the same parent.
      simp only [rebind, map_some, map_cons, cons.injEq, true_and, Binding.enter_parent]
      cases found.parent with
      | none => rfl
      | some parent => exact ih parent

theorem chainOf_bindName (id : FrameId) : (e.bindName b frame).chainOf id = (e.chainOf id).map (rebind b) := by
  have hsize : (e.bindName b frame).frames.size = e.frames.size := by
    unfold bindName
    rw [TreeMap.size_insert, if_pos]
    exact TreeMap.mem_iff_isSome_getElem?.mpr (by simp [hframe])
  unfold chainOf
  rw [hsize, chain_bindName hframe]

theorem lookupGlobal_bindName (hother : name ≠ b.name ∨ e.global ≠ some b.frame) :
    (e.bindName b frame).lookupGlobal name = e.lookupGlobal name := by
  unfold lookupGlobal
  simp only [getElem?_bindName hframe]
  rw [show (e.bindName b frame).global = e.global from rfl]
  cases hglobal : e.global with
  | none => rfl
  | some id =>
    have hnot : ¬(id = b.frame ∧ name = b.name) := fun ⟨hid, hname⟩ =>
      hother.elim (· hname) (· (hid ▸ hglobal))
    cases hid : e.frames[id]? <;> simp [hid, rebind, Binding.lookup_enter, hnot]

variable (hfree : frame.types.lookup b.name = none)

include hfree

theorem lookupAlong_bindName (name : String)
    (hchain : ∀ entry ∈ chain, ∀ found ∈ entry.2, e.frames[entry.1]? = some found) :
    (e.bindName b frame).lookupAlong name (chain.map (rebind b)) = e.lookupAlong name chain ∨ name = b.name ∧
      ((∃ nearer, nearer <+: chain ∧ b.frame ∈ nearer.map Prod.fst ∧ Unbound name nearer) ∨
        e.global = some b.frame ∧ Unbound name chain) := by
  induction chain with
  | nil =>
    by_cases hseen : name = b.name ∧ e.global = some b.frame
    · exact .inr ⟨hseen.1, .inr ⟨hseen.2, by simp [Unbound]⟩⟩
    · exact .inl (lookupGlobal_bindName hframe (Decidable.not_and_iff_or_not.mp hseen))
  | cons entry outward ih =>
    obtain ⟨id, found⟩ := entry
    obtain ⟨hhere, houtward⟩ := forall_mem_cons.mp hchain
    cases found with
    | none => exact .inl rfl
    | some found =>
      have hunbound (hnone : found.types.lookup name = none) {rest}
          (hrest : Unbound name rest) : Unbound name ((id, some found) :: rest) :=
        forall_mem_cons.mpr ⟨by simpa using hnone, hrest⟩
      simp only [map_cons, rebind, map_some, lookupAlong, Binding.lookup_enter]
      by_cases hseen : id = b.frame ∧ name = b.name
      · obtain ⟨rfl, rfl⟩ := hseen
        obtain rfl : found = frame := some.inj ((hhere found rfl).symm.trans hframe)
        exact .inr ⟨rfl, .inl ⟨[(b.frame, some found)], by simp, by simp, hunbound hfree (by simp [Unbound])⟩⟩
      · rw [if_neg hseen]
        cases hnone : found.types.lookup name with
        | some type => exact .inl rfl
        | none =>
          refine (ih houtward).imp (fun hsame => hsame) fun ⟨hname, hseen⟩ => ⟨hname, hseen.imp ?_ ?_⟩
          · rintro ⟨nearer, hprefix, hmem, hall⟩
            exact ⟨(id, some found) :: nearer, by simpa using hprefix, by simp [hmem], hunbound hnone hall⟩
          · exact fun ⟨hglobal, hall⟩ => ⟨hglobal, hunbound hnone hall⟩

/-- Binding a name changes what it stands for only where the frame exposes it, or where it is seen
among the globals. -/
theorem lookup_bindName (start : FrameId) (name : String) :
    (e.bindName b frame).lookup start name = e.lookup start name ∨ name = b.name ∧
      (e.Exposes start b.frame name ∨ e.global = some b.frame ∧ Unbound name (e.chainOf start)) := by
  unfold lookup
  rw [chainOf_bindName hframe]
  exact lookupAlong_bindName hframe hfree name mem_chainOf

end Bound

/-! ## Bindings -/

/-- The binding has been made: its frame gives the name its type. -/
def Holds (e : Environment) (b : Binding) : Prop :=
  ∃ frame, e.frames[b.frame]? = some frame ∧ frame.types.lookup b.name = some b.type

theorem Adds.holds (hadds : e.Adds e' b) : e'.Holds b := by
  obtain ⟨frame, hframe, -, rfl⟩ := hadds
  refine ⟨b.enter b.frame frame, ?_, by simp [Binding.lookup_enter]⟩
  simp [getElem?_bindName hframe, rebind, hframe]

/-- A frame binds a name once, so other bindings stay. -/
theorem Adds.holds_of {other : Binding} (hadds : e.Adds e' b) (hother : e.Holds other) : e'.Holds other := by
  obtain ⟨holder, hholder, hfree, rfl⟩ := hadds
  obtain ⟨frame, hframe, htype⟩ := hother
  have hne : ¬(other.frame = b.frame ∧ other.name = b.name) := by
    rintro ⟨hid, hname⟩
    cases (hid ▸ hframe).symm.trans hholder
    cases (hname ▸ hfree).symm.trans htype
  refine ⟨b.enter other.frame frame, ?_, by rwa [Binding.lookup_enter, if_neg hne]⟩
  simp [getElem?_bindName hholder, rebind, hframe]

theorem holds_declare {id : FrameId} {type : CType} {fresh : Bool}
    (hdeclare : e.declare id name type = .ok ((b, fresh), e')) : b.frame = id ∧ b.name = name ∧ e'.Holds b := by
  obtain ⟨rfl, rfl, ⟨-, hadds⟩ | ⟨-, rfl, hb⟩⟩ := declare_eq_ok hdeclare
  · exact ⟨rfl, rfl, hadds.holds⟩
  · exact ⟨rfl, rfl, hb⟩

theorem holds_of_lookupAlong (hchain : ∀ entry ∈ chain, ∀ found ∈ entry.2, e.frames[entry.1]? = some found)
    (hlookup : e.lookupAlong name chain = some b) : b.name = name ∧ e.Holds b := by
  induction chain with
  | nil =>
    simp only [lookupAlong, lookupGlobal, bind_eq_bind, bind_eq_some_iff] at hlookup
    obtain ⟨id, -, frame, hframe, type, htype, hb⟩ := hlookup
    cases hb
    exact ⟨rfl, frame, hframe, htype⟩
  | cons entry outward ih =>
    obtain ⟨id, found⟩ := entry
    obtain ⟨hhere, houtward⟩ := forall_mem_cons.mp hchain
    cases found with
    | none => cases hlookup
    | some frame =>
      unfold lookupAlong at hlookup
      split at hlookup
      next type htype =>
        cases hlookup
        exact ⟨rfl, frame, hhere frame rfl, htype⟩
      next => exact ih houtward hlookup

/-- A name that is resolved is bound. -/
theorem holds_resolve {id : FrameId} {declared : NodeId → Option CType} {fresh : Bool}
    (hresolve : e.resolve id name declared = .ok ((b, fresh), e')) : b.name = name ∧ e'.Holds b := by
  unfold resolve at hresolve
  split at hresolve
  next hlookup =>
    cases hresolve
    exact holds_of_lookupAlong mem_chainOf hlookup
  next =>
    obtain ⟨found, -, hresolve⟩ := exists_of_bind_ok hresolve
    split at hresolve
    · exact (holds_declare hresolve).2
    · cases hresolve

/-! ## Shapes -/

/-- The environments differ in the names that frames bind, and in the frame of the globals. -/
structure SameShape (e e' : Environment) : Prop where
  policy : e'.policy = e.policy
  size : e'.frames.size = e.frames.size
  jumps : e'.jumps = e.jumps
  frames : ∀ id : FrameId, e'.frames[id]?.map Frame.activation = e.frames[id]?.map Frame.activation
  holds : ∀ {b}, e.Holds b → e'.Holds b

theorem SameShape.refl (e : Environment) : e.SameShape e := ⟨rfl, rfl, rfl, fun _ => rfl, id⟩

theorem SameShape.trans {e middle e' : Environment} (hfirst : e.SameShape middle)
    (hsecond : middle.SameShape e') : e.SameShape e' where
  policy := hsecond.policy.trans hfirst.policy
  size := hsecond.size.trans hfirst.size
  jumps := hsecond.jumps.trans hfirst.jumps
  frames id := (hsecond.frames id).trans (hfirst.frames id)
  holds hb := hsecond.holds (hfirst.holds hb)

theorem Adds.sameShape (hadds : e.Adds e' b) : e.SameShape e' := by
  have hkept {other : Binding} : e.Holds other → e'.Holds other := hadds.holds_of
  obtain ⟨frame, hframe, -, rfl⟩ := hadds
  refine ⟨rfl, ?_, rfl, fun other => ?_, hkept⟩
  · rw [bindName, TreeMap.size_insert, if_pos]
    exact TreeMap.mem_iff_isSome_getElem?.mpr (by simp [hframe])
  · rw [bindName, TreeMap.getElem?_insert]
    split
    next hother =>
      rw [← Std.compare_eq_iff_eq.mp hother, hframe]
      rfl
    next => rfl

theorem sameShape_declare {id : FrameId} {type : CType} {result : Binding × Bool}
    (hdeclare : e.declare id name type = .ok (result, e')) :
    e.SameShape e' := by
  obtain ⟨-, -, ⟨-, hadds⟩ | ⟨-, rfl, -⟩⟩ := declare_eq_ok hdeclare
  · exact hadds.sameShape
  · exact .refl _

theorem sameShape_resolve {id : FrameId} {declared : NodeId → Option CType} {result : Binding × Bool}
    (hresolve : e.resolve id name declared = .ok (result, e')) : e.SameShape e' := by
  obtain ⟨-, -, -, hadds⟩ | ⟨-, rfl⟩ := resolve_eq_ok hresolve
  · exact hadds.sameShape
  · exact .refl _

theorem sameShape_setGlobal {id : FrameId} (hset : e.setGlobal id = .ok e') :
    e.SameShape e' := by
  unfold setGlobal at hset
  split at hset
  · cases hset
  · obtain ⟨frame, -, rfl⟩ := exists_of_map_ok hset
    exact ⟨rfl, rfl, rfl, fun _ => rfl, fun hb => hb⟩

theorem SameShape.ranked (hsame : e.SameShape e') (he : e.Ranked) : e'.Ranked := by
  intro id frame hframe
  have hactivation := (hsame.frames id).symm.trans (congrArg (Option.map Frame.activation) hframe)
  obtain ⟨old, hold, heq⟩ := Option.map_eq_some_iff.mp hactivation
  rw [← show old.parent = frame.parent from congrArg Prod.snd heq]
  exact he hold

/-! ## The way outward -/

/-- The frames from a frame outward, with no bound on the way: a way that never ends relates to nothing. -/
inductive Outward (e : Environment) : FrameId → List (FrameId × Option Frame) → Prop where
  | unknown {id : FrameId} (hid : e.frames[id]? = none) : Outward e id [(id, none)]
  | outermost {id : FrameId} {frame : Frame} (hid : e.frames[id]? = some frame) (hparent : frame.parent = none) :
      Outward e id [(id, some frame)]
  | inner {id parent : FrameId} {frame : Frame} {chain : List (FrameId × Option Frame)}
      (hid : e.frames[id]? = some frame) (hparent : frame.parent = some parent) (houter : Outward e parent chain) :
      Outward e id ((id, some frame) :: chain)

/-- Frames have numbers below their count, and come after those that they are inside of. -/
structure Orderly (e : Environment) : Prop where
  below : ∀ id ∈ e.frames, id < e.frames.size
  ranked : e.Ranked

/-- Each step outward leads to a smaller number, so the count of frames is enough. -/
theorem Orderly.outward (he : e.Orderly) (id : FrameId) : e.Outward id (e.chainOf id) := by
  have hway fuel id (hid : id < fuel ∨ e.frames[id]? = none ∧ 0 < fuel) :
      e.Outward id (e.chain fuel id) := by
    induction fuel generalizing id with
    | zero => simp at hid
    | succ fuel ih =>
      unfold Environment.chain
      split
      next hnone => exact .unknown hnone
      next frame hframe =>
        split
        next parent hparent =>
          have hid : id < fuel + 1 := by simpa [hframe] using hid
          refine .inner hframe hparent (ih parent (.inl ?_))
          exact Nat.lt_of_lt_of_le (he.ranked hframe parent hparent) (Nat.le_of_lt_succ hid)
        next hparent => exact .outermost hframe hparent
  refine hway _ id ?_
  by_cases hid : id ∈ e.frames
  · exact .inl (Nat.lt_succ_of_lt (he.below id hid))
  · exact .inr ⟨TreeMap.getElem?_eq_none hid, Nat.succ_pos _⟩

/-! ## Operations -/

/-- An operation on an environment that succeeds. A block is activated inside a frame that exists. -/
inductive Turns : Environment → Environment → Prop where
  | push (e : Environment) (scope : NodeId) {parent : Option FrameId}
      (hparent : ∀ outer ∈ parent, outer ∈ e.frames) : Turns e (e.push scope parent).2
  | declare {e e' : Environment} {id : FrameId} {name : String} {type : CType} {b : Binding} {fresh : Bool}
      (hdeclare : e.declare id name type = .ok ((b, fresh), e')) : Turns e e'
  | resolve {e e' : Environment} {id : FrameId} {name : String} {declared : NodeId → Option CType}
      {b : Binding} {fresh : Bool} (hresolve : e.resolve id name declared = .ok ((b, fresh), e')) : Turns e e'
  | setGlobal {e e' : Environment} {id : FrameId} (hset : e.setGlobal id = .ok e') : Turns e e'

/-- Of the frames, an operation leaves all alone, binds a name in one, or adds one. -/
theorem Turns.frames_cases (hturns : Turns e e') : e'.frames = e.frames ∨ (∃ b, e.Adds e' b) ∨
    ∃ scope parent, (∀ outer ∈ parent, outer ∈ e.frames) ∧ e'.frames = (e.grown scope parent).frames := by
  cases hturns with
  | push scope hparent =>
    unfold Environment.push
    split
    · exact .inl rfl
    · exact .inr (.inr ⟨scope, _, hparent, rfl⟩)
  | declare hdeclare =>
    obtain ⟨-, -, ⟨-, hadds⟩ | ⟨-, rfl, -⟩⟩ := declare_eq_ok hdeclare
    · exact .inr (.inl ⟨_, hadds⟩)
    · exact .inl rfl
  | resolve hresolve =>
    obtain ⟨-, -, -, hadds⟩ | ⟨-, rfl⟩ := resolve_eq_ok hresolve
    · exact .inr (.inl ⟨_, hadds⟩)
    · exact .inl rfl
  | setGlobal hset =>
    unfold Environment.setGlobal at hset
    split at hset
    · cases hset
    · obtain ⟨-, -, rfl⟩ := exists_of_map_ok hset
      exact .inl rfl

theorem Orderly.turns (he : e.Orderly) (hturns : Turns e e') : e'.Orderly := by
  rcases hturns.frames_cases with hsame | ⟨b, hadds⟩ | ⟨scope, parent, hparent, hgrown⟩
  · exact ⟨hsame ▸ he.below, fun {id frame} hid => he.ranked (hsame ▸ hid)⟩
  · have hshape := hadds.sameShape
    refine ⟨fun id hid => hshape.size ▸ he.below id ?_, hshape.ranked he.ranked⟩
    have hframes := congrArg isSome (hshape.frames id)
    rw [isSome_map, isSome_map] at hframes
    exact TreeMap.mem_iff_isSome_getElem?.mpr (hframes ▸ TreeMap.mem_iff_isSome_getElem?.mp hid)
  · refine ⟨hgrown ▸ below_grown he.below, fun {id frame} hid => ?_⟩
    exact Ranked.grown he.ranked (fun outer houter => he.below outer (hparent outer houter)) (hgrown ▸ hid)

theorem Orderly.holds_turns (he : e.Orderly) (hturns : Turns e e') (hb : e.Holds b) : e'.Holds b := by
  rcases hturns.frames_cases with hsame | ⟨new, hadds⟩ | ⟨scope, parent, hparent, hgrown⟩
  · rwa [Holds, hsame]
  · exact hadds.holds_of hb
  · obtain ⟨frame, hframe, htype⟩ := hb
    exact ⟨frame, hgrown ▸ getElem?_grown_of_some he.below hframe, htype⟩

open Relation

/-- **Names are resolved stably and locally.** After any operations, the way outward from a frame ends.
Bindings come from declaring and resolving names, and looking a name up finds one of them. None is ever
changed, and two of them have two addresses. Declaring a name changes what a name stands for only if it
is the same name, seen from where the declaring frame exposes it or seen among the globals. -/
theorem resolution_stable_local {policy : FramePolicy} (hmade : ReflTransGen Turns (new policy) e) :
    (∀ id, e.Outward id (e.chainOf id)) ∧
    (∀ id name b, e.lookup id name = some b → b.name = name ∧ e.Holds b) ∧
    (∀ id name declared b fresh e', e.resolve id name declared = .ok ((b, fresh), e') →
      b.name = name ∧ e'.Holds b) ∧
    (∀ b e', e.Holds b → ReflTransGen Turns e e' → e'.Holds b) ∧
    (∀ b b', e.Holds b → e.Holds b' → b.address = b'.address → b = b') ∧
    ∀ id name type b fresh e', e.declare id name type = .ok ((b, fresh), e') →
      b.frame = id ∧ b.name = name ∧ e'.Holds b ∧
      ∀ start other, e'.lookup start other ≠ e.lookup start other → other = name ∧
        (e.Exposes start id name ∨ e.global = some id ∧ Unbound name (e.chainOf start)) := by
  have he : e.Orderly := by
    induction hmade with
    | refl => exact ⟨by simp [new], by simp [Ranked, new]⟩
    | tail _ hturns ih => exact ih.turns hturns
  refine ⟨he.outward, fun id name b => holds_of_lookupAlong mem_chainOf,
    fun id name declared b fresh e' => holds_resolve,
    fun b e' hb hlater => ?_, ?_, fun id name type b fresh e' hdeclare => ?_⟩
  · have hboth : e'.Orderly ∧ e'.Holds b := by
      induction hlater with
      | refl => exact ⟨he, hb⟩
      | tail _ hturns ih => exact ⟨ih.1.turns hturns, ih.1.holds_turns hturns ih.2⟩
    exact hboth.2
  · rintro ⟨id, name, type⟩ ⟨id', name', type'⟩ ⟨frame, hframe, htype⟩ ⟨frame', hframe', htype'⟩ haddress
    cases haddress
    cases hframe.symm.trans hframe'
    cases htype.symm.trans htype'
    rfl
  · obtain ⟨hid, hname, hb⟩ := holds_declare hdeclare
    refine ⟨hid, hname, hb, fun start other hchanged => ?_⟩
    obtain ⟨rfl, rfl, ⟨-, frame, hframe, hfree, rfl⟩ | ⟨-, rfl, -⟩⟩ := declare_eq_ok hdeclare
    · obtain ⟨rfl, hseen⟩ := (lookup_bindName hframe hfree start other).resolve_left hchanged
      exact ⟨rfl, hseen⟩
    · exact absurd rfl hchanged

/-- It holds of a block inside another one. The outer frame exposes a name to the inner one, which
therefore sees it declared. -/
theorem resolution_stable_local_nested :
    let e := (((new .zeroCfa).push 0 none).2.push 1 (some 0)).2
    ∃ b e', e.declare 0 "x" .int = .ok ((b, true), e') ∧ e'.Holds b ∧ e'.lookup 1 "x" = some b ∧
      (e.Exposes 1 0 "x" ∨ e.global = some 0 ∧ Unbound "x" (e.chainOf 1)) := by
  refine ⟨⟨0, "x", .int⟩, _, rfl, ?_⟩
  have hmade : ReflTransGen Turns (new .zeroCfa) (((new .zeroCfa).push 0 none).2.push 1 (some 0)).2 :=
    (ReflTransGen.single (.push _ 0 (by simp))).tail (.push _ 1 (by decide))
  obtain ⟨-, -, hb, hlocal⟩ := (resolution_stable_local hmade).2.2.2.2.2 0 "x" .int _ _ _ rfl
  exact ⟨hb, by decide, (hlocal 1 "x" (by decide)).2⟩

end Environment

end CoreC
