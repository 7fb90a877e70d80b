import CoreC.Proofs.Machine.Certain
import CoreC.Proofs.Memory.Resolution

/-! # What names stand for

Seen from a frame, a name has the type of its binding, or else that of the nearest declaration
around it. Binding it on first use changes neither its own type nor that of any other name, and
so evaluating in a frame leaves the types of all names alone. It leaves the memory that there is alone
as well, where blocks are not shared.
-/

namespace CoreC

open Environment Store

variable {name : String} {chain : List (FrameId × Option Frame)}

namespace Environment

/-- The type of a name seen from a frame. -/
def typeOf? (e : Environment) (declared : String → NodeId → Option CType) (id : FrameId)
    (name : String) : Option CType :=
  match e.lookup id name with
  | some b => some b.type
  | none =>
    match findAlong (fun frame => declared name frame.scope) (e.chainOf id) with
    | .ok (some (_, type)) => some type
    | _ => none

variable {e e' : Environment} {id : FrameId} {b : Binding}

/-- A name bound where it is declared is found there from now on. -/
theorem lookupAlong_bindName_self {declared : NodeId → Option CType} {frame : Frame}
    (hunbound : e.lookupAlong b.name chain = none)
    (hfound : findAlong (fun frame => declared frame.scope) chain = .ok (some (b.frame, b.type))) :
    (e.bindName b frame).lookupAlong b.name (chain.map (rebind b)) = some b := by
  induction chain with
  | nil => cases hfound
  | cons entry outward ih =>
    obtain ⟨id, found⟩ := entry
    cases found with
    | none => cases hfound
    | some found =>
      simp only [List.map_cons, rebind, Option.map_some, lookupAlong]
      by_cases hholder : id = b.frame
      · subst hholder
        simp [Binding.enter]
      · simp only [Binding.enter, hholder, if_false]
        -- Farther out, as this frame neither binds nor declares the name.
        unfold lookupAlong at hunbound
        unfold findAlong at hfound
        split at hunbound
        · cases hunbound
        next htypes =>
          split at hfound
          next hdeclared =>
            cases hfound
            exact absurd rfl hholder
          next => exact ih hunbound hfound

theorem findAlong_rebind {α : Type} (found : NodeId → Option α) (chain : List (FrameId × Option Frame)) :
    findAlong (fun frame => found frame.scope) (chain.map (rebind b)) =
      findAlong (fun frame => found frame.scope) chain := by
  induction chain with
  | nil => rfl
  | cons entry outward ih =>
    obtain ⟨id, frame⟩ := entry
    cases frame with
    | none => rfl
    | some frame =>
      simp only [List.map_cons, rebind, Option.map_some, findAlong, Binding.enter_scope]
      cases found frame.scope with
      | none => exact ih
      | some a => rfl

/-- Where a name is not bound along a chain, the frame that declares it does not bind it. -/
theorem unbound_of_findAlong {α : Type} {found : Frame → Option α} {a : α}
    (hunbound : e.lookupAlong name chain = none) (hfound : findAlong found chain = .ok (some (id, a))) :
    ∃ frame, (id, some frame) ∈ chain ∧ frame.types.lookup name = none := by
  induction chain with
  | nil => cases hfound
  | cons entry outward ih =>
    obtain ⟨number, frame⟩ := entry
    cases frame with
    | none => cases hfound
    | some frame =>
      unfold lookupAlong at hunbound
      unfold findAlong at hfound
      split at hunbound
      · cases hunbound
      next htypes =>
        split at hfound
        next =>
          cases hfound
          exact ⟨frame, List.mem_cons_self, htypes⟩
        next =>
          obtain ⟨other, hother, hnone⟩ := ih hunbound hfound
          exact ⟨other, List.mem_cons_of_mem _ hother, hnone⟩

/-- Names keep their types and their bindings, and frames further in are left alone. -/
structure Elaborates (declared : String → NodeId → Option CType) (id : FrameId) (e e' : Environment) :
    Prop where
  types : ∀ name, e'.typeOf? declared id name = e.typeOf? declared id name
  bound : ∀ {name b}, e.lookup id name = some b → e'.lookup id name = some b
  inner : e.Ranked → e'.Ranked ∧ ∀ frame > id, e'.frames[frame]? = e.frames[frame]?

theorem Elaborates.refl (declared : String → NodeId → Option CType) (id : FrameId) (e : Environment) :
    Elaborates declared id e e := ⟨fun _ => rfl, fun h => h, fun he => ⟨he, fun _ _ => rfl⟩⟩

variable {declared : String → NodeId → Option CType}

theorem Elaborates.trans {middle : Environment} (hfirst : Elaborates declared id e middle)
    (hsecond : Elaborates declared id middle e') : Elaborates declared id e e' where
  types name := (hsecond.types name).trans (hfirst.types name)
  bound h := hsecond.bound (hfirst.bound h)
  inner he := by
    obtain ⟨hmiddle, hsame⟩ := hfirst.inner he
    obtain ⟨he', hsame'⟩ := hsecond.inner hmiddle
    exact ⟨he', fun frame hframe => (hsame' frame hframe).trans (hsame frame hframe)⟩

/-- Binding a name on its first use gives it the type that it had, and binds no other name. -/
theorem elaborates_resolve (declared : String → NodeId → Option CType) {fresh : Bool}
    (hresolve : e.resolve id name (declared name) = .ok ((b, fresh), e')) :
    Elaborates declared id e e' ∧ e'.lookup id name = some b := by
  unfold resolve at hresolve
  split at hresolve
  next binding hbound =>
    cases hresolve
    exact ⟨.refl declared id e, hbound⟩
  next hunbound =>
    obtain ⟨result, hfound, hresolve⟩ := exists_of_bind_ok hresolve
    split at hresolve
    next holder type =>
      obtain ⟨frame, hmem, hfree⟩ := unbound_of_findAlong hunbound hfound
      have hframe := getElem?_of_mem_chain hmem
      rw [declare_of_free hframe hfree] at hresolve
      cases hresolve
      have hlookup : (e.bindName ⟨holder, name, type⟩ frame).lookup id name = some ⟨holder, name, type⟩ := by
        unfold lookup
        rw [chainOf_bindName hframe]
        exact lookupAlong_bindName_self hunbound hfound
      have hother other (hne : other ≠ name) :
          (e.bindName ⟨holder, name, type⟩ frame).lookup id other = e.lookup id other :=
        (lookup_bindName hframe hfree id other).resolve_right fun hseen => hne hseen.1
      refine ⟨⟨fun other => ?_, fun {other b} hb => ?_, fun he => ?_⟩, hlookup⟩
      · by_cases hne : other = name
        · subst hne
          unfold typeOf?
          rw [hlookup, hunbound, hfound]
        · unfold typeOf?
          rw [hother other hne, chainOf_bindName hframe, findAlong_rebind]
      · refine (hother other ?_).trans hb
        rintro rfl
        cases hunbound.symm.trans hb
      · refine ⟨(Adds.sameShape ⟨frame, hframe, hfree, rfl⟩).ranked he, fun inner hinner => ?_⟩
        have hne : inner ≠ holder := Nat.ne_of_gt (Nat.lt_of_le_of_lt (le_of_mem_chain he hmem) hinner)
        simp [bindName, Std.TreeMap.getElem?_insert, Ne.symm hne]
    next => cases hresolve

end Environment

namespace Machine

variable {ι φ α : Type}

/-- The type of a name seen from a frame. -/
def nameType? (m : Machine ι φ) (frame : FrameId) (name : String) : Option CType :=
  m.env.typeOf? (fun name scope => m.outline.declaredType? scope name) frame name

/-- The program and the memory that there was are the same, and seen from the frame names keep their
types and their bindings. -/
structure Elaborates (frame : FrameId) (m m' : Machine ι φ) : Prop where
  outline : m'.outline = m.outline
  layouts : m'.layouts = m.layouts
  env : m.env.Elaborates (fun name scope => m.outline.declaredType? scope name) frame m'.env
  store : m.layouts.Sized → m.store.Augments m'.store

variable {m m' : Machine ι φ}

theorem Elaborates.nameType?_eq {frame : FrameId} (h : Elaborates frame m m')
    (name : String) : m'.nameType? frame name = m.nameType? frame name := by
  unfold nameType?
  rw [h.outline]
  exact h.env.types name

theorem Elaborates.program_eq {frame : FrameId} (h : Elaborates frame m m') :
    m'.program = m.program := congrArg Outline.program h.outline

theorem elaboration (frame : FrameId) : Evolution (Elaborates (ι := ι) (φ := φ) frame) where
  refl m := ⟨rfl, rfl, .refl _ _ _, fun _ => augmentation.refl _⟩
  trans hfirst hsecond := by
    refine ⟨hsecond.outline.trans hfirst.outline, hsecond.layouts.trans hfirst.layouts,
      hfirst.env.trans ?_, fun hsized => ?_⟩
    · have hlater := hsecond.env
      rwa [hfirst.outline] at hlater
    · exact augmentation.trans (hfirst.store hsized) (hsecond.store (hfirst.layouts ▸ hsized))

/-- With the layouts, the operation leaves alone what can be seen from the frame; its result meets the
condition. -/
abbrev Elaborately (l : Layouts) (frame : FrameId) (P : Machine ι φ → Prop) (act : MachineM ι φ α)
    (Q : α → Machine ι φ → Prop) : Prop := Secures (·.layouts = l) (Elaborates frame) P act Q

variable {frame : FrameId} {l : Layouts} {act : MachineM ι φ α}

theorem elaborates_aside (hact : ∀ m, l = m.layouts → Elaborates frame m (leaves act m)) :
    Elaborately l frame (fun _ => True) act fun _ _ => True :=
  fun m hm _ => ⟨(hact m hm.symm).layouts.trans hm, hact m hm.symm, fun _ _ _ => trivial⟩

theorem elaborates_onStore {act : StoreM ι φ α} {P : Environment → Prop} (hact : l.Sized → Keeps Augments act) :
    Elaborately l frame (fun m => P m.env) (onStore act) fun _ m => P m.env :=
  secures_onStore fun m hm hP => ⟨hm, ⟨rfl, rfl, .refl _ _ _, fun hsized =>
    hact (hm ▸ hsized) m.store⟩, fun _ _ _ => hP⟩

section Evaluation

variable [DecidableEq ι] [BEq φ] [Domain ι φ]

/-- A name that was resolved is bound from now on. -/
theorem elaborates_resolveName (frame : FrameId) (name : String) :
    Elaborately l frame (fun _ => True) (resolveName frame name : MachineM ι φ Binding)
      fun b m => m.env.lookup frame name = some b := by
  refine Secures.readNow fun m _ _ => .bind (elaboration frame)
    (M := fun result m => m.env.lookup frame name = some result.1)
    (secures_onEnv (elaboration frame) ?_) fun result => ?_
  · rintro m result env hm rfl hresolve
    obtain ⟨helaborates, hlookup⟩ := elaborates_resolve (fun name scope => m.outline.declaredType? scope name) hresolve
    exact ⟨hm, ⟨rfl, rfl, helaborates, fun _ => augmentation.refl _⟩, hlookup⟩
  · refine Secures.ite (fun _ => .bind (elaboration frame) (M := fun _ m => m.env.lookup frame name = some result.1)
      (Secures.read fun m hm _ => ?_) fun _ => ?_) fun _ => ?_
    · cases hlayout : m.layouts.layout result.1.type with
      | error fault => exact .throw (elaboration frame) fault
      | ok layout =>
        refine elaborates_onStore (P := fun env => env.lookup frame name = some result.1) fun hsized s => ?_
        exact (sparing .concrete _ _).allocate ⟨trivial, by simp [Binding.base]⟩ fun unit hunit =>
          (hsized (hm ▸ hlayout) unit hunit).1
    all_goals exact .pure (elaboration frame) fun _ _ hlookup => hlookup

/-- A name that was resolved had the type of its binding before. -/
theorem nameType?_of_resolveName {b : Binding} (hrun : resolveName frame name m = .ok b m') :
    m.nameType? frame name = some b.type := by
  obtain ⟨-, helaborates, hresult⟩ := elaborates_resolveName (l := m.layouts) frame name m rfl trivial
  rw [leaves_of_ok hrun] at helaborates
  rw [← helaborates.nameType?_eq, nameType?, Environment.typeOf?, hresult b m' hrun]

/-- A block that is cleared is new. -/
theorem elaborates_allocateBlock (call : NodeId) (size : Nat) (zeroed : Bool) :
    Elaborately l frame (fun _ => True) (allocateBlock call size zeroed : MachineM ι φ
      (ValueSet ι φ)) fun _ _ => True := by
  refine Secures.ite (fun _ => .pure (elaboration frame) fun _ _ _ => trivial) fun _ =>
    Secures.read fun seen hseen _ => ?_
  have hpos (hsized : l.Sized) := pos_blockLayout (hseen ▸ hsized) call size
  cases zeroed with
  | false =>
    refine .bind (elaboration frame) (elaborates_onStore (P := fun _ => True) fun hsized => ?_) fun _ =>
      .pure (elaboration frame) fun _ _ _ => trivial
    exact (sparing .concrete _ _).malloc (fun _ id hid => ⟨trivial, fun _ h =>
      Base.heap.inj h ▸ hid⟩) call (hpos hsized)
  | true =>
    have hboth : Elaborately l frame (fun _ => True) (onStore (do
        let address ← malloc call (seen.blockLayout call size)
        zeroFill address.base) : MachineM ι φ PUnit) fun _ _ => True :=
      elaborates_onStore (P := fun _ => True) fun hsized => augments_calloc call (hpos hsized)
    refine elaborates_aside fun m hm => ?_
    have hkept := (hboth m hm.symm trivial).2.1
    rw [leaves_onStore, leaves_bind] at hkept
    change Elaborates frame m (leaves (onStore (malloc call _) >>= fun address =>
      onStore (zeroFill address.base) >>= fun _ => Pure.pure _) m)
    rw [leaves_bind, onStore]
    cases hrun : malloc call (seen.blockLayout call size) m.store with
    | ok address store =>
      simp only [hrun] at hkept ⊢
      rw [leaves_bind, onStore]
      revert hkept
      unfold leaves
      cases zeroFill address.base store <;> exact id
    | error fault store => simpa only [hrun] using hkept

/-- Working in a frame leaves the types of the names that are seen from it alone. -/
def elaborating (l : Layouts) (frame : FrameId) : Rules ι φ where
  Obeys Q act := Elaborately l frame (fun _ => True) act fun a _ => Q a
  Meets m := m.layouts = l
  Stores act := l.Sized → Keeps Augments act
  pure ha := .pure (elaboration frame) fun _ _ _ => ha
  throw _ := .throw (elaboration frame) _
  bind hact hnext := .bind (elaboration frame) hact fun b => Secures.assuming fun hb => hnext b hb
  view _ hnext := Secures.read fun m hm _ => hnext m hm
  onStore hact _ := elaborates_onStore (P := fun _ => True) hact
  note _ _ := elaborates_aside fun _ _ => ⟨rfl, rfl, .refl _ _ _, fun _ => augmentation.refl _⟩
  print _ _ _ := elaborates_aside fun _ _ => ⟨rfl, rfl, .refl _ _ _, fun _ => augmentation.refl _⟩
  threads _ := elaborates_aside fun _ _ => ⟨rfl, rfl, .refl _ _ _, fun _ => augmentation.refl _⟩
  literal site text _ := augments_literal site text
  malloc call size hm hsized := (sparing .concrete _ _).malloc (fun _ id hid =>
    ⟨trivial, fun _ h => Base.heap.inj h ▸ hid⟩)
    call (pos_blockLayout (hm ▸ hsized) call size)
  free address _ := (sparing .concrete _ _).free address

/-- So does evaluating. -/
def elaborationRules (l : Layouts) (frame : FrameId) : EvalRules ι φ where
  toRules := elaborating l frame
  Allows seen _ := seen = frame
  blocks := elaborates_allocateBlock
  child _ hnode _ _ := hnode
  resolve seen _ hseen _ := hseen ▸ Secures.weaken (elaborates_resolveName seen _) fun _ _ _ => trivial
  undetermined _ _ _ _ _ _ := trivial

theorem elaborates_of_ok {Q : α → Prop}
    (hact : (elaborationRules (ι := ι) (φ := φ) m.layouts frame).Obeys Q act) {a : α}
    (hrun : act m = .ok a m') : Elaborates frame m m' := by
  have hkept := (hact m rfl trivial).2.1
  rwa [leaves_of_ok hrun] at hkept

end Evaluation

end Machine

end CoreC
