import CoreC.Proofs.Machine.StepRules

/-! # Rules for tasks

What a step does may have to be said of the world that it is taken in; only worlds that come later
are met afterwards. Rules for tasks say what tasks stand in which world, and that evaluation and
finding frames lead from one world to a later one. Then moving control and resuming a continuation
lead to tasks that stand. If storing continuations, calling functions and starting blocks keep to
them as well, so does every step; where tasks go on one by one, it leads to at most one task of the
thread that takes it.
-/

namespace CoreC

open List Control Construct

variable {kont : Continuation} {block : NodeId} {konts : List Continuation} {address : KontAddress}
  {construct : Construct} {clauses : List Clause}

/-- The continuation may be handed a value. -/
def KontKind.Sound (Forces : Bool → Prop) (Knows : NodeId → Prop) : KontKind → Prop
  | .assign dest _ => Forces (1 < dest.length)
  | .branch thenBlock elseBlock => Knows thenBlock ∧ ∀ block ∈ elseBlock, Knows block
  | .loop body => Knows body
  | .ret _ | .call | .release .. => True

theorem KontTable.slot_of_read {t : KontTable} (hread : t.read address = .ok konts) :
    t.slots[address]? = some konts := by
  unfold KontTable.read at hread
  split at hread <;> cases hread
  assumption

namespace Machine

/-- What is stored at an address is looked up in the machine that the computation starts in. -/
theorem secures_slot {ι φ α : Type} {I : Machine ι φ → Prop} {R : Machine ι φ → Machine ι φ → Prop}
    (hR : Evolution R) {Q : α → Machine ι φ → Prop} {m : Machine ι φ}
    {next : List Continuation → MachineM ι φ α}
    (hnext : ∀ konts, I m → m.konts.slots[address]? = some konts → Secures I R (· = m) (next konts) Q) :
    Secures I R (· = m) (do next (← check ((← get).konts.read address))) Q := by
  refine Secures.read fun seen hseen hsame => ?_
  subst hsame
  cases hread : seen.konts.read address with
  | error fault => exact Secures.throw hR fault
  | ok konts => exact hnext konts hseen (KontTable.slot_of_read hread)

variable {ι φ α β : Type} [DecidableEq ι] [BEq φ] [Domain ι φ]

theorem Rules.construct_of_shows (r : Rules ι φ) {o : Outline}
    (hmeets : ∀ m, r.Meets m → m.outline = o) {node : NodeId} (hshows : r.Shows node construct) :
    o.program.construct? node = some construct := by
  obtain ⟨m, hm, hconstruct⟩ := hshows
  rwa [program, hmeets m hm] at hconstruct

/-- What is known of worlds, tasks and operations. Unless said otherwise, nothing is. -/
structure TaskRules (ι φ : Type) [DecidableEq ι] [BEq φ] [Domain ι φ] where
  /-- What evaluation keeps to. -/
  rules : DeclarationRules ι φ
  World : Type
  Later : World → World → Prop
  /-- From the world the operation leads to a world and a result that meet the condition. -/
  Runs : {α : Type} → World → (World → α → Prop) → MachineM ι φ α → Prop
  Stands : World → State → Prop := fun _ _ => True
  /-- A task may go on in the frame, under the continuation and in the thread, and wait. -/
  Ready : World → FrameId → KontAddress → ThreadId → Option Barrier → Prop := fun _ _ _ _ _ => True
  /-- The frame may be given to a task in the block. -/
  Found : World → NodeId → FrameId → Prop := fun _ _ _ => True
  /-- Where control may be. -/
  Within : Control → Prop := fun _ => True
  /-- What blocks may be entered. -/
  Knows : NodeId → Prop := fun _ => True
  later : Evolution Later
  pure : ∀ {α : Type} {w : World} {Q : World → α → Prop} {a : α}, Q w a → Runs w Q (Pure.pure a)
  throw : ∀ {α : Type} {w : World} {Q : World → α → Prop} {fault : Fault}, rules.Allowed fault →
    Runs w Q (MonadExcept.throw fault)
  bind : ∀ {α β : Type} {w : World} {P : World → β → Prop} {Q : World → α → Prop} {act : MachineM ι φ β}
    {next : β → MachineM ι φ α}, Runs w P act →
    (∀ w' b, Later w w' → P w' b → Runs w' Q (next b)) → Runs w Q (act >>= next)
  view : ∀ {α : Type} {w : World} {Q : World → α → Prop} {next : Machine ι φ → MachineM ι φ α},
    (∀ {m konts}, next { m with konts } = next m) →
    (∀ m, rules.Meets m → Runs w Q (next m)) → Runs w Q (MonadState.get >>= next)
  inner : ∀ {α : Type} {w : World} {P : α → Prop} {act : MachineM ι φ α}, rules.Obeys P act →
    Runs w (fun _ => P) act
  lasts : ∀ {w w' state}, Later w w' → Stands w state → Stands w' state := by intros; trivial
  remains : ∀ {w w' frame kont thread waits}, Later w w' → Ready w frame kont thread waits →
    Ready w' frame kont thread waits := by intros; trivial
  stands : ∀ {w} {state : State}, Ready w state.frame state.kont state.thread state.barrier →
    Within state.control → (∀ block ∈ state.control.block?, Found w block state.frame) → Stands w state := by
    intros; exact True.intro
  found : ∀ {w frame kont thread waits block other}, Ready w frame kont thread waits →
    Found w block other → Ready w other kont thread waits := by intros; trivial
  frameFor : ∀ (w : World) (start : FrameId) (block : NodeId) (keep : Bool),
    Runs w (fun w frame => Found w block frame) (frameFor start block keep)
  successor : ∀ {m : Machine ι φ} {control next : Control}, rules.Meets m → Within control →
    control.successor m.outline = .ok next → Within next := by intros; trivial
  enter : ∀ {m : Machine ι φ} {block : NodeId} {control : Control}, rules.Meets m → Knows block →
    enter m.outline block = .ok control → Within control := by intros; trivial
  position : ∀ {m : Machine ι φ} {stmt block : NodeId} {index : Nat}, rules.Meets m →
    m.outline.position stmt = .ok (block, index) → Within (.stmt block index) := by intros; trivial

variable {next : β → MachineM ι φ α} {act : MachineM ι φ α}

namespace TaskRules

variable (R : TaskRules ι φ) {w : R.World} {Q : R.World → α → Prop} {C : R.World → Prop}
  (hC : ∀ {w w'}, R.Later w w' → C w → C w')

theorem ite {c : Prop} [Decidable c] {yes no : MachineM ι φ α} (hyes : R.Runs w Q yes)
    (hno : R.Runs w Q no) : R.Runs w Q (if c then yes else no) := by
  split
  · exact hyes
  · exact hno

theorem refuse {fault : Fault} (hfault : fault.isOrdinary = true) :
    R.Runs w Q (MonadExcept.throw fault) := R.throw (R.rules.covers fault hfault)

theorem weaken {P : R.World → α → Prop} (hact : R.Runs w P act)
    (hQ : ∀ w' a, R.Later w w' → P w' a → Q w' a) : R.Runs w Q act := by
  rw [← bind_pure act]
  exact R.bind hact fun w' a hlater ha => R.pure (hQ w' a hlater ha)

/-- The world may move on before anything is done. -/
theorem first {P : R.World → Prop} (hfirst : R.Runs w (fun w _ => P w) (Pure.pure PUnit.unit))
    (hact : ∀ w', R.Later w w' → P w' → R.Runs w' Q act) : R.Runs w Q act := by
  have hboth : R.Runs w Q (Pure.pure PUnit.unit >>= fun _ => act) := R.bind hfirst fun w' _ => hact w'
  exact hboth

include hC

/-- What lasts is not lost to what comes first. -/
theorem carry {P : R.World → β → Prop} {act : MachineM ι φ β} (hw : C w) (hact : R.Runs w P act)
    (hnext : ∀ w' b, C w' → P w' b → R.Runs w' Q (next b)) :
    R.Runs w Q (act >>= next) := R.bind hact fun w' b hlater hb => hnext w' b (hC hlater hw) hb

theorem after {P : β → Prop} {act : MachineM ι φ β} (hw : C w) (hact : R.rules.Obeys P act)
    (hnext : ∀ w' b, C w' → P b → R.Runs w' Q (next b)) :
    R.Runs w Q (act >>= next) := R.carry hC hw (R.inner hact) hnext

theorem mapM {f : β → MachineM ι φ α} {items : List β} (hQ : ∀ {w w' a}, R.Later w w' → Q w a → Q w' a)
    (hw : C w) (hf : ∀ w', C w' → ∀ b ∈ items, R.Runs w' Q (f b)) :
    R.Runs w (fun w out => out.length = items.length ∧ ∀ a ∈ out, Q w a) (items.mapM f) := by
  rw [← mapM'_eq_mapM]
  induction items generalizing w with
  | nil => exact R.pure (by simp)
  | cons b rest ih =>
    refine R.carry hC hw (hf w hw b mem_cons_self) fun w₁ a hw ha => ?_
    refine R.bind (ih hw fun w' hw b hb => hf w' hw b (mem_cons_of_mem _ hb)) fun w₂ out hlater hout => ?_
    exact R.pure ⟨congrArg (· + 1) hout.1, forall_mem_cons.mpr ⟨hQ hlater ha, hout.2⟩⟩

omit hC

/-! ## Moving control -/

/-- The task stands in the place of another. -/
def Follows (state : State) (w : R.World) (next : State) : Prop := next.Replaces state ∧ R.Stands w next

/-- One task goes on in the place of another. -/
def Proceeds (state : State) (w : R.World) (states : List State) : Prop :=
  ∃ next, states = [next] ∧ R.Follows state.awake w next

variable {state : State}

theorem settle (hready : R.Ready w state.frame state.kont state.thread state.barrier)
    (hwithin : R.Within state.control) : R.Runs w (R.Follows state) (settle state) := by
  unfold Machine.settle
  split
  next hnone => exact R.pure ⟨⟨rfl, rfl, rfl⟩, R.stands hready hwithin (by simp [hnone])⟩
  next block hblock =>
    refine R.carry R.remains hready (R.frameFor w _ block false) fun w' frame hready hframe => ?_
    refine R.pure ⟨⟨rfl, rfl, rfl⟩, R.stands (R.found hready hframe) hwithin fun other hother => ?_⟩
    cases hblock.symm.trans hother
    exact hframe

theorem proceeds {other : State} (hsame : other.Replaces state.awake)
    (hready : R.Ready w other.frame other.kont other.thread other.barrier) (hwithin : R.Within other.control) :
    R.Runs w (R.Proceeds state) (do return [← Machine.settle other]) := by
  refine R.bind (R.settle hready hwithin) fun w' next _ hnext => R.pure ⟨next, rfl, ?_, hnext.2⟩
  exact ⟨hnext.1.kont.trans hsame.kont, hnext.1.thread.trans hsame.thread, hnext.1.barrier.trans hsame.barrier⟩

variable (hready : R.Ready w state.frame state.kont state.thread none)

include hready

theorem advance (hwithin : R.Within state.control) : R.Runs w (R.Proceeds state) (advance state) := by
  refine R.view rfl fun m hm => ?_
  refine R.after R.remains hready (R.rules.noted (raises_successor R.rules.covers _ _))
    fun w' control hready hcontrol => ?_
  exact R.proceeds ⟨rfl, rfl, rfl⟩ hready (R.successor hm hwithin hcontrol)

theorem enterBlock (hblock : R.Knows block) :
    R.Runs w (R.Proceeds state) (do return [← enterBlock state block]) := by
  unfold Machine.enterBlock
  simp only [bind_assoc]
  refine R.carry R.remains hready (R.frameFor w _ block false) fun w₁ frame hready hframe => ?_
  refine R.view rfl fun m hm => ?_
  refine R.after R.remains (R.found hready hframe)
    (R.rules.noted (raises_enter R.rules.covers _ _)) fun w₂ control hready hcontrol => ?_
  exact R.proceeds ⟨rfl, rfl, rfl⟩ hready (R.enter hm hblock hcontrol)

theorem jump (label : String) : R.Runs w (R.Proceeds state) (jump state label) := by
  refine R.view rfl fun m hm => ?_
  dsimp only
  split
  · exact R.refuse rfl
  · split
    · exact R.refuse rfl
    · split
      · exact R.refuse rfl
      · refine R.after R.remains hready (R.rules.noted (m.outline.raises_position R.rules.covers _))
          fun w₁ place hready hplace => ?_
        refine R.carry R.remains hready (R.frameFor w₁ _ _ true) fun w₂ frame hready hframe => ?_
        refine R.pure ⟨_, rfl, ⟨rfl, rfl, rfl⟩, R.stands (R.found hready hframe) (R.position hm hplace) ?_⟩
        intro block hblock
        cases hblock
        exact hframe

omit hready

/-! ## Continuations -/

theorem Proceeds.flatten {R : TaskRules ι φ} {w : R.World} {out : List (List State)}
    (hout : ∀ states ∈ out, R.Proceeds state w states) :
    out.flatten.length = out.length ∧ ∀ next ∈ out.flatten, R.Follows state.awake w next := by
  induction out with
  | nil => simp
  | cons states rest ih =>
    obtain ⟨⟨next, rfl, hnext⟩, hrest⟩ := forall_mem_cons.mp hout
    obtain ⟨hlength, hall⟩ := ih hrest
    refine ⟨?_, forall_mem_cons.mpr ⟨hnext, hall⟩⟩
    rw [flatten_cons, length_append, hlength]
    exact Nat.add_comm 1 _

/-- One task goes on, or one for each outcome that the value has as a condition. -/
def Resumes (value : Option (ValueSet ι φ)) (state : State) (w : R.World) (states : List State) : Prop :=
  (∀ next ∈ states, R.Follows state.awake w next) ∧ (states.length = 1 ∨ ∃ values outcomes,
    value = some values ∧ truths values = .ok outcomes ∧ states.length = outcomes.length)

variable {value : Option (ValueSet ι φ)}

theorem onTruths {next : Bool → MachineM ι φ (List State)} (hC : ∀ {w w'}, R.Later w w' → C w → C w')
    (hw : C w) (hnext : ∀ w', C w' → ∀ b, R.Runs w' (R.Proceeds state) (next b)) :
    R.Runs w (R.Resumes value state) (onTruths value next) := by
  cases value with
  | none => exact R.refuse rfl
  | some values =>
    refine R.after hC hw (R.rules.noted (raises_truths R.rules.covers values)) fun w₁ outcomes hw houtcomes => ?_
    refine R.bind (R.mapM hC ?_ hw fun w' hw b _ => hnext w' hw b) fun w₂ out _ hout => R.pure ?_
    · rintro w w' states hlater ⟨next, rfl, hnext⟩
      exact ⟨next, rfl, hnext.1, R.lasts hlater hnext.2⟩
    · obtain ⟨hlength, hall⟩ := Proceeds.flatten hout.2
      exact ⟨hall, .inr ⟨values, outcomes, rfl, houtcomes, hlength.trans hout.1⟩⟩

/-- A task that is handed a value goes on under the parent of its continuation. -/
theorem resume {forward : KontAddress → Option (ValueSet ι φ) → State → MachineM ι φ (List State)}
    (hvalue : R.rules.Hands value) (hret : ∀ scalar, kont.kind ≠ .ret scalar)
    (hrelease : ∀ barrier mode, kont.kind ≠ .release barrier mode)
    (hready : R.Ready w kont.frame kont.parent state.thread none) (hwithin : R.Within kont.control)
    (hsound : kont.kind.Sound R.rules.Forces R.Knows) (left : List Barrier) :
    R.Runs w (fun w result => R.Resumes value (kont.resumed state.thread none) w result.1)
      (invokeOne forward value state kont left) := by
  let resumed := kont.resumed state.thread none
  have hadvance (w : R.World) (hready : R.Ready w kont.frame kont.parent state.thread none) :
      R.Runs w (R.Proceeds resumed) (Machine.advance resumed) := R.advance hready hwithin
  have hgoesOn (w : R.World) (hready : R.Ready w kont.frame kont.parent state.thread none) :
      R.Runs w (fun w (result : List State × List Barrier) => R.Resumes value resumed w result.1)
        (do return (← Machine.advance resumed, left)) := by
    refine R.bind (hadvance w hready) fun w' states _ hstates => R.pure ?_
    obtain ⟨next, rfl, hnext⟩ := hstates
    exact ⟨forall_mem_singleton.mpr hnext, .inl rfl⟩
  have hforks {next : Bool → MachineM ι φ (List State)}
      (hnext : ∀ w, R.Ready w kont.frame kont.parent state.thread none → ∀ b, R.Runs w (R.Proceeds resumed) (next b)) :
      R.Runs w (fun w (result : List State × List Barrier) => R.Resumes value resumed w result.1)
        (do return (← Machine.onTruths value next, left)) :=
    R.bind (R.onTruths R.remains hready hnext) fun _ _ _ hstates => R.pure hstates
  obtain ⟨kind, control, frame, parent⟩ := kont
  cases kind with
  | assign dest scalar =>
    cases value with
    | some values =>
      refine R.after R.remains hready (R.rules.assignAll (hvalue _ rfl) hsound _) fun w _ hready _ => ?_
      exact hgoesOn w hready
    | none => exact hgoesOn w hready
  | call => exact hgoesOn w hready
  | branch thenBlock elseBlock =>
    refine hforks fun w hready b => ?_
    cases b with
    | true => exact R.enterBlock hready hsound.1
    | false =>
      cases elseBlock with
      | some block => exact R.enterBlock hready (hsound.2 block rfl)
      | none => exact hadvance w hready
  | loop body =>
    refine hforks fun w hready b => ?_
    cases b with
    | true => exact R.enterBlock hready hsound
    | false => exact hadvance w hready
  | ret scalar => exact absurd rfl (hret scalar)
  | release barrier mode => exact absurd rfl (hrelease barrier mode)

end TaskRules

/-- Rules for frames are rules for tasks in which nothing depends on the world. -/
def FrameRules.taskRules (c : FrameRules ι φ) : TaskRules ι φ where
  rules := c.toDeclarationRules
  World := Unit
  Later _ _ := True
  Runs _ Q := c.Obeys (Q ())
  later := ⟨fun _ => trivial, fun _ _ => trivial⟩
  pure := c.pure
  throw := c.throw
  bind hact hnext := c.bind hact fun b => hnext () b trivial
  view := c.view
  inner := id
  frameFor _ start block keep := c.frameFor start block keep

theorem FrameRules.settle (c : FrameRules ι φ) (state : State) : c.Obeys (·.Replaces state) (settle state) :=
  c.weaken (c.taskRules.settle (w := ()) trivial trivial) fun _ hsettled => hsettled.1

theorem FrameRules.sound (c : FrameRules ι φ) (kind : KontKind) :
    kind.Sound c.taskRules.rules.Forces c.taskRules.Knows := by
  cases kind with
  | assign => exact c.forces _
  | branch => exact ⟨trivial, fun _ _ => trivial⟩
  | loop | ret | call | release => exact trivial

/-! ## Steps of tasks -/

/-- The task is one of those that run the block of a construct. -/
inductive BlockTask.Of (node : NodeId) : Construct → BlockTask → Prop where
  | region {clauses : List Clause} {block : NodeId} {thread : ThreadId} {mode : ReleaseMode} {resume : Control} :
      Of node (.parallel clauses block) ⟨block, thread, .construct node, mode, resume, Clause.privatized clauses⟩
  | iteration {clauses : List Clause} {var : String} {init bound step body : NodeId} {condOp stepOp : BinOp}
      {thread : ThreadId} : Of node (.parallelFor clauses var init condOp bound stepOp step body)
        ⟨body, thread, .construct node, .die, .invoke, Clause.privatized clauses⟩
  | lock {name : Option String} {block : NodeId} {thread : ThreadId} {resume : Control} :
      Of node (.critical name block) ⟨block, thread, .critical, .resume, resume, []⟩

/-- Rules for tasks that all operations of a step keep to. -/
structure TaskStepRules (ι φ : Type) [DecidableEq ι] [BEq φ] [Domain ι φ] extends TaskRules ι φ where
  /-- Whether tasks go on one by one. -/
  Sole : Prop := False
  /-- The task is in front of the statement. -/
  At : State → NodeId → Prop := fun _ _ => True
  /-- The frame has its private copies and nothing else. -/
  Fresh : World → List (String × Privatization) → FrameId → Prop := fun _ _ _ => True
  free : ∀ frame node, rules.Allows frame node := by intros; trivial
  names : ∀ frame name, rules.Names frame name := by intros; trivial
  ready : ∀ {w} {state : State}, Stands w state.awake →
    Ready w state.frame state.kont state.thread none := by intros; trivial
  within : ∀ {w} {state : State}, Stands w state.awake → Within state.control := by intros; trivial
  apart : ∀ {control : Control}, control.block? = none → Within control := by intros; trivial
  afterStmt : ∀ {m : Machine ι φ} {stmt : NodeId} {control : Control}, rules.Meets m →
    Control.afterStmt m.outline stmt = .ok control → Within control := by intros; trivial
  knows : ∀ {state : State} {stmt : NodeId}, At state stmt → Knows stmt := by intros; trivial
  child : ∀ {node child : NodeId} {construct : Construct}, Knows node → rules.Shows node construct →
    child ∈ construct.children → Knows child := by intros; trivial
  outcomes : ∀ {values : ValueSet ι φ} {outcomes : List Bool}, Sole → rules.Values values →
    truths values = .ok outcomes → outcomes.length ≤ 1 := by intros; contradiction
  teams : ∀ {α : Type} (act : Teams → α × Teams),
    (∀ teams, teams.lastThread ≤ (act teams).2.lastThread) → rules.Permits (onTeams act)
  push : ∀ {w : World} {kont : Continuation} {thread : ThreadId},
    Ready w kont.frame kont.parent thread none → Within kont.control → kont.kind.Sound rules.Forces Knows →
    (∀ barrier mode, kont.kind ≠ .release barrier mode) →
    Runs w (fun w address => Ready w kont.frame address thread none) (pushKont kont thread)
  call : ∀ {w : World} {state : State} {function : NodeId} {kont : KontAddress} (args : List NodeId),
    Ready w state.frame kont state.thread none → rules.Calls function →
    Runs w (fun w called => called.thread = state.thread ∧ Stands w called)
      (callFunction state function args kont)
  newThread : ∀ {w : World} {state : State}, Stands w state.awake →
    Runs w (fun w thread => (Sole → thread ≠ state.thread) ∧ Ready w state.frame state.kont thread none)
      (onTeams Teams.newThread)
  start : ∀ {w : World} {state : State} {stmt : NodeId} {construct : Construct} {task : BlockTask},
    At state stmt → rules.Shows stmt construct → task.Of stmt construct → Within task.resume →
    Ready w state.frame state.kont task.thread none →
    Runs w (fun w worker => worker.thread = task.thread ∧ Stands w worker ∧
      Fresh w task.privatized worker.frame) (startBlock state task)
  counter : ∀ {w : World} {clauses : List Clause} {var : String} {stmt init bound step body : NodeId}
    {condOp stepOp : BinOp} {frame : FrameId} (type : CType),
    rules.Shows stmt (.parallelFor clauses var init condOp bound stepOp step body) →
    Fresh w (Clause.privatized clauses) frame → Runs w (fun _ _ => True) (declareLocal frame var type)
  /-- The task that meets a loop may go on behind it. -/
  behind : ∀ {m : Machine ι φ} {w : World} {state : State} {clauses : List Clause} {var : String}
    {stmt init bound step body : NodeId} {condOp stepOp : BinOp} {successor : Control}, At state stmt →
    rules.Shows stmt (.parallelFor clauses var init condOp bound stepOp step body) → rules.Meets m →
    Control.afterStmt m.outline stmt = .ok successor → Stands w state.awake →
    Runs w (fun w _ => Stands w (if .noWait ∈ clauses then state.goto successor
      else (state.goto successor).waitingOn (.construct stmt))) (Pure.pure PUnit.unit)
  /-- The task that meets a critical section may wait for it. -/
  wait : ∀ {w : World} {state : State} {stmt block : NodeId} {name : Option String}, At state stmt →
    rules.Shows stmt (.critical name block) → Stands w state.awake →
    Runs w (fun w _ => Stands w (state.waitingOn .critical)) (Pure.pure PUnit.unit)

namespace TaskStepRules

variable (R : TaskStepRules ι φ)

/-- The tasks stand, and are of the thread; where tasks go on one by one there is at most one. -/
def Tasks (thread : ThreadId) (w : R.World) (states : List State) : Prop :=
  (R.Sole → states.length ≤ 1) ∧ ∀ next ∈ states, next.thread = thread ∧ R.Stands w next

/-- The tasks stand; where tasks go on one by one, at most one is of the thread. -/
def Succeeds (thread : ThreadId) (w : R.World) (states : List State) : Prop :=
  (R.Sole → (states.filter (·.thread = thread)).length ≤ 1) ∧ ∀ next ∈ states, R.Stands w next

variable {R} {w : R.World} {state : State} {thread : ThreadId} {states : List State}

theorem Tasks.succeeds (hstates : R.Tasks thread w states) : R.Succeeds thread w states :=
  ⟨fun hsole => Nat.le_trans (length_filter_le _ _) (hstates.1 hsole),
    fun next hnext => (hstates.2 next hnext).2⟩

theorem tasks_singleton {next : State} (hthread : next.thread = thread) (hnext : R.Stands w next) :
    R.Tasks thread w [next] :=
  ⟨fun _ => Nat.le_refl 1, forall_mem_singleton.mpr ⟨hthread, hnext⟩⟩

variable (R)

theorem proceed {act : MachineM ι φ (List State)} (hact : R.Runs w (R.Proceeds state) act) :
    R.Runs w (R.Succeeds state.thread) act := by
  refine R.weaken hact fun w' states _ hstates => ?_
  obtain ⟨next, rfl, hnext⟩ := hstates
  exact (tasks_singleton hnext.1.thread hnext.2).succeeds

theorem alone {act : MachineM ι φ State}
    (hact : R.Runs w (fun w next => next.thread = thread ∧ R.Stands w next) act) :
    R.Runs w (R.Succeeds thread) (do return [← act]) :=
  R.bind hact fun _ _ _ hnext => R.pure (tasks_singleton hnext.1 hnext.2).succeeds

theorem descend (hstate : R.Stands w state.awake) (expr : NodeId) {kind : KontKind}
    (hsound : kind.Sound R.rules.Forces R.Knows) (hplain : ∀ barrier mode, kind ≠ .release barrier mode) :
    R.Runs w (R.Succeeds state.thread) (descend state expr kind) := by
  refine R.bind (R.push (R.ready hstate) (R.within hstate) hsound hplain) fun w' kont _ hkont => R.pure ?_
  exact (tasks_singleton rfl (R.stands hkont (R.apart rfl) fun _ hnone => by cases hnone)).succeeds

/-! ## Parallel constructs -/

/-- Tasks that are started run in threads of their own. -/
theorem startAll {γ : Type} {stmt : NodeId} (hat : R.At state stmt)
    (hshows : R.rules.Shows stmt construct) {task : ThreadId → BlockTask}
    (htask : ∀ thread, (task thread).Of stmt construct ∧ (task thread).thread = thread ∧ R.Within (task thread).resume)
    {place : List State → ThreadId → Teams → Teams}
    (hplace : ∀ started thread teams, teams.lastThread ≤ (place started thread teams).lastThread)
    {furnish : γ → State → MachineM ι φ PUnit} (hfurnish : ∀ w item thread worker,
      R.Fresh w (task thread).privatized worker.frame → R.Runs w (fun _ _ => True) (furnish item worker))
    (items : List γ) {started : List State} (hstate : R.Stands w state.awake)
    (hstarted : R.Succeeds state.thread w started) :
    R.Runs w (R.Succeeds state.thread) (startAll state task place furnish items started) := by
  induction items generalizing w started with
  | nil =>
    refine R.pure ⟨fun hsole => ?_, fun next hnext => hstarted.2 next (mem_reverse.mp hnext)⟩
    simpa [filter_reverse] using hstarted.1 hsole
  | cons item rest ih =>
    refine R.bind (R.newThread hstate) fun w₁ thread hlater₁ hthread => ?_
    refine R.bind (R.inner (R.teams _ (hplace started thread))) fun w₂ _ hlater₂ _ => ?_
    obtain ⟨hof, hsame, hresume⟩ := htask thread
    refine R.bind (R.start hat hshows hof hresume ?_) fun w₃ worker hlater₃ hworker => ?_
    · rw [hsame]
      exact R.remains hlater₂ hthread.2
    refine R.bind (hfurnish w₃ item thread worker hworker.2.2) fun w₄ _ hlater₄ _ => ?_
    have hlater := R.later.trans hlater₁ (R.later.trans hlater₂ (R.later.trans hlater₃ hlater₄))
    refine ih (R.lasts hlater hstate) ⟨fun hsole => ?_, forall_mem_cons.mpr ⟨?_, fun next hnext => ?_⟩⟩
    · have hother : worker.thread ≠ state.thread := fun heq =>
        hthread.1 hsole (hsame.symm.trans (hworker.1.symm.trans heq))
      simpa [hother] using hstarted.1 hsole
    · exact R.lasts hlater₄ hworker.2.1
    · exact R.lasts hlater (hstarted.2 next hnext)

section Directives

variable {stmt : NodeId} (hat : R.At state stmt) (hstate : R.Stands w state.awake)

include hat hstate

theorem startTeam (hshows : R.rules.Shows stmt (.parallel clauses block)) :
    R.Runs w (R.Succeeds state.thread) (startTeam state stmt clauses block) := by
  refine R.after R.lasts hstate (R.rules.requestedThreads state fun _ => R.free _ _) fun w requested hstate _ => ?_
  refine R.after R.lasts hstate (R.teams _ fun _ => Nat.le_refl _) fun w children hstate _ => ?_
  refine R.view rfl fun m hm => ?_
  refine R.after R.lasts hstate (R.rules.noted (Control.raises_afterStmt R.rules.covers _ _))
    fun w resume hstate hresume => ?_
  refine R.after R.lasts hstate (R.teams _ fun _ => Nat.le_refl _) fun w _ hstate _ => ?_
  have hresume := R.afterStmt hm hresume
  refine R.carry R.lasts hstate (R.start hat hshows .region hresume (R.ready hstate)) fun w first hstate hfirst => ?_
  rw [startWorkers_eq _ _ _ _ (show 1 = [first].length from rfl)]
  refine R.startAll hat hshows ?_ ?_ ?_ _ hstate (tasks_singleton hfirst.1 hfirst.2.1).succeeds
  · exact fun _ => ⟨.region, rfl, hresume⟩
  · exact fun _ _ _ => Nat.le_refl _
  · exact fun _ _ _ _ _ => R.pure trivial

theorem startLoop {var : String} {init bound step body : NodeId} {condOp stepOp : BinOp}
    (hshows : R.rules.Shows stmt (.parallelFor clauses var init condOp bound stepOp step body)) :
    R.Runs w (R.Succeeds state.thread)
      (startLoop state stmt clauses var init condOp bound stepOp step body) := by
  have hsingle (what : String) (values : ValueSet ι φ) :=
    R.rules.checked (raises_singleValue R.rules.covers what values)
  refine R.view rfl fun m hm => ?_
  refine R.after R.lasts hstate (R.rules.noted (Control.raises_afterStmt R.rules.covers _ _))
    fun w successor hstate hsuccessor => ?_
  dsimp only
  generalize hgoesOn : (if Clause.noWait ∈ clauses then state.goto successor
    else (state.goto successor).waitingOn (.construct stmt)) = goesOn
  have hthread : goesOn.thread = state.thread := by
    rw [← hgoesOn]
    split <;> rfl
  -- From here on the task that met the loop and the one behind it have to last.
  have hlasts {w w' : R.World} (hlater : R.Later w w') (hw : R.Stands w state.awake ∧ R.Stands w goesOn) :
      R.Stands w' state.awake ∧ R.Stands w' goesOn := ⟨R.lasts hlater hw.1, R.lasts hlater hw.2⟩
  refine R.first (R.behind hat hshows hm hsuccessor hstate) fun w hlater hbehind => ?_
  have hw : R.Stands w state.awake ∧ R.Stands w goesOn := ⟨R.lasts hlater hstate, hgoesOn ▸ hbehind⟩
  refine R.view rfl fun m _ => R.ite (R.pure (tasks_singleton hthread hw.2).succeeds) ?_
  refine R.after hlasts hw (R.rules.resolveName (R.names _ var)) fun w binding hw _ => ?_
  refine R.after hlasts hw (R.rules.eval state (R.free _ _)) fun w _ hw _ => ?_
  refine R.after hlasts hw (hsingle _ _) fun w boundValue hw _ => ?_
  refine R.after hlasts hw (R.rules.eval state (R.free _ _)) fun w _ hw _ => ?_
  refine R.after hlasts hw (hsingle _ _) fun w stepValue hw _ => ?_
  refine R.after hlasts hw (R.rules.eval state (R.free _ _)) fun w _ hw _ => ?_
  refine R.after hlasts hw (hsingle _ _) fun w start hw _ => R.view rfl fun m _ => ?_
  refine R.after hlasts hw (R.rules.checked (raises_loopValues R.rules.admits _ _ _ _ _)) fun w passed hw _ => ?_
  rw [startIterations_eq]
  refine R.startAll hat hshows ?_ ?_ (fun w v _ worker hfresh => ?_) _ hw.1 (tasks_singleton hthread hw.2).succeeds
  · exact fun _ => ⟨.iteration, rfl, R.apart rfl⟩
  · intro _ thread teams
    unfold Teams.inherit
    split <;> exact Nat.le_refl _
  · refine R.bind (R.counter _ hshows hfresh) fun w' address _ _ => ?_
    exact R.inner (R.rules.writeAs (R.rules.single v) address _)

theorem enterCritical {name : Option String} (hshows : R.rules.Shows stmt (.critical name block)) :
    R.Runs w (R.Succeeds state.thread) (enterCritical state stmt block) := by
  refine R.view rfl fun m _ => R.ite (R.view rfl fun m hm => ?_) ?_
  · refine R.after R.lasts hstate (R.rules.noted (Control.raises_afterStmt R.rules.covers _ _))
      fun w' resume hstate hresume => ?_
    refine R.alone (R.weaken (R.start hat hshows .lock (R.afterStmt hm hresume) (R.ready hstate)) ?_)
    exact fun _ worker _ hworker => ⟨hworker.1, hworker.2.1⟩
  · exact R.first (R.wait hat hshows hstate) fun w' _ hwaits => R.pure (tasks_singleton rfl hwaits).succeeds

end Directives

/-! ## Continuations -/

/-- What is known of a continuation that is stored. -/
structure Holds (w : R.World) (thread : ThreadId) (kont : Continuation) : Prop where
  ready : R.Ready w kont.frame kont.parent thread none
  waits : ∀ {barrier mode}, kont.kind = .release barrier mode →
    R.Ready w kont.frame kont.parent thread (mode.waits? barrier)
  within : R.Within kont.control
  sound : kont.kind.Sound R.rules.Forces R.Knows

/-- What is stored may be looked up. -/
structure Stores : Prop where
  tolerates : ∀ fault, R.rules.Allowed fault := by intros; trivial
  returned : ∀ (w : R.World) (text : String),
    R.Runs w (fun _ _ => True) (modify fun m => { m with returned := some text })
  size : ∀ {w : R.World} {Q : R.World → List State → Prop} {next : Nat → MachineM ι φ (List State)},
    (∀ n, R.Runs w Q (next n)) → R.Runs w Q (do next ((← get).konts.size + 1))
  slot : ∀ {w : R.World} {Q : R.World → List State → Prop} {frame : FrameId} {address : KontAddress}
    {thread : ThreadId} {next : List Continuation → MachineM ι φ (List State)},
    R.Ready w frame address thread none →
    (∀ konts, (R.Sole → konts.length ≤ 1) → (∀ kont ∈ konts, R.Holds w thread kont) → R.Runs w Q (next konts)) →
    R.Runs w Q (do next (← check ((← get).konts.read address)))

variable {R}

theorem Holds.later {w' : R.World} (hlater : R.Later w w') (hkont : R.Holds w thread kont) :
    R.Holds w' thread kont :=
  ⟨R.remains hlater hkont.ready, fun hkind => R.remains hlater (hkont.waits hkind), hkont.within, hkont.sound⟩

section Forward

variable {forward : KontAddress → Option (ValueSet ι φ) → State → MachineM ι φ (List State)}
  (hforward : ∀ w value state, R.rules.Hands value →
    R.Ready w state.frame state.kont state.thread none →
    R.Runs w (R.Tasks state.thread) (forward state.kont value state))
  {value : Option (ValueSet ι φ)} (hvalue : R.rules.Hands value)

include hforward hvalue

theorem invokeOne (hkont : R.Holds w state.thread kont) (left : List Barrier) :
    R.Runs w (fun w result => R.Tasks state.thread w result.1) (invokeOne forward value state kont left) := by
  obtain ⟨hready, hwaits, hwithin, hsound⟩ := hkont
  obtain ⟨kind, control, frame, parent⟩ := kont
  cases kind with
  | ret scalar =>
    refine R.after R.remains hready (R.rules.convertReturned scalar hvalue) fun w converted hready hconverted => ?_
    exact R.bind (hforward w converted ⟨control, frame, parent, state.thread, none⟩ hconverted.1 hready)
      fun _ _ _ hstates => R.pure hstates
  | release barrier mode =>
    refine R.after R.remains (hwaits rfl) (R.rules.release (fun act => R.teams act) state _ barrier mode _)
      fun w released hready hreleased => ?_
    let resumed : State := ⟨control, frame, parent, state.thread, mode.waits? barrier⟩
    have hsettle : R.Runs w (fun w out => out.length = released.length ∧ ∀ next ∈ out, R.Follows resumed w next)
        (released.mapM Machine.settle) := by
      refine R.mapM R.remains (fun hlater => .imp_right (R.lasts hlater)) hready fun w hready next hnext => ?_
      rw [hreleased.2 next hnext]
      exact R.settle hready hwithin
    refine R.bind hsettle fun w settled _ hsettled => R.pure ⟨fun _ => hsettled.1 ▸ hreleased.1, ?_⟩
    exact fun next hnext => ⟨(hsettled.2 next hnext).1.thread, (hsettled.2 next hnext).2⟩
  | assign | call | branch | loop =>
    refine R.weaken (R.resume hvalue (by simp) (by simp) hready hwithin hsound left) fun w result _ hresult => ?_
    refine ⟨fun hsole => ?_, fun next hnext => ⟨(hresult.1 next hnext).1.thread, (hresult.1 next hnext).2⟩⟩
    rcases hresult.2 with hone | ⟨values, outcomes, hsome, houtcomes, hlength⟩
    · exact Nat.le_of_eq hone
    · exact hlength ▸ R.outcomes hsole (hvalue values hsome) houtcomes

theorem invokeAll (hkonts : ∀ kont ∈ konts, R.Holds w state.thread kont) (left : List Barrier) :
    R.Runs w (fun w states => (R.Sole → states.length ≤ konts.length) ∧
        ∀ next ∈ states, next.thread = state.thread ∧ R.Stands w next)
      (invokeAll forward value state konts left) := by
  induction konts generalizing w left with
  | nil => exact R.pure (by simp)
  | cons kont rest ih =>
    obtain ⟨hkont, hrest⟩ := forall_mem_cons.mp hkonts
    refine R.bind (invokeOne hforward hvalue hkont left) fun w₁ result hlater hresult => ?_
    refine R.bind (ih (fun kont hmem => (hrest kont hmem).later hlater) result.2) fun w₂ states hlater hstates => ?_
    refine R.pure ⟨fun hsole => ?_, forall_mem_append.mpr ⟨fun next hnext => ?_, hstates.2⟩⟩
    · rw [length_append, Nat.add_comm]
      exact Nat.add_le_add (hstates.1 hsole) (hresult.1 hsole)
    · exact ⟨(hresult.2 next hnext).1, R.lasts hlater (hresult.2 next hnext).2⟩

end Forward

/-- By induction on the number of returns that may still be passed. -/
theorem invokeWithin (hstores : R.Stores) (fuel : Nat) (w : R.World) (value : Option (ValueSet ι φ)) (state : State)
    (hvalue : R.rules.Hands value) (hready : R.Ready w state.frame state.kont state.thread none) :
    R.Runs w (R.Tasks state.thread) (invokeWithin fuel state.kont value state) := by
  have hgone {w : R.World} : R.Tasks state.thread w [] := ⟨fun _ => Nat.zero_le 1, by simp⟩
  unfold Machine.invokeWithin
  refine R.ite ?_ (hstores.slot hready fun konts hone hkonts => ?_)
  · split
    · exact R.ite (R.bind (hstores.returned w _) fun _ _ _ _ => R.pure hgone) (R.pure hgone)
    · exact R.pure hgone
  · cases fuel with
    | zero => exact R.throw (hstores.tolerates _)
    | succ fuel =>
      refine R.weaken (invokeAll (invokeWithin hstores fuel) hvalue hkonts []) fun w states _ hstates => ?_
      exact ⟨fun hsole => Nat.le_trans (hstates.1 hsole) (hone hsole), hstates.2⟩

theorem invoke (hstores : R.Stores) {value : Option (ValueSet ι φ)} (hvalue : R.rules.Hands value)
    (hready : R.Ready w state.frame state.kont state.thread none) :
    R.Runs w (R.Succeeds state.thread) (invoke state.kont value state) :=
  hstores.size fun fuel => R.weaken (invokeWithin hstores fuel w value state hvalue hready)
    fun _ _ _ hstates => hstates.succeeds

/-! ## Steps -/

section Steps

variable (hinvoke : ∀ {w value}, R.rules.Hands value →
  R.Ready w state.frame state.kont state.thread none →
  R.Runs w (R.Succeeds state.thread) (Machine.invoke state.kont value state))

/-- What an expression leads to. -/
abbrev expressionRules : ExpressionRules R.rules state where
  Takes act := ∀ w, R.Stands w state.awake → R.Runs w (R.Succeeds state.thread) act
  free := R.free
  names := R.names
  throw hfault _ _ := R.throw hfault
  bind hact hnext _ hstate := R.after R.lasts hstate hact fun w b hstate hb => hnext b hb w hstate
  view hsame hnext w hstate := R.view hsame fun m hm => hnext m hm w hstate
  advance _ hstate := R.proceed (R.advance (R.ready hstate) (R.within hstate))
  call args hcalls _ hstate := R.alone (R.call args (R.ready hstate) hcalls)

include hinvoke

/-- What a statement leads to. -/
def statementRules {stmt : NodeId} (hat : R.At state stmt) : StatementRules R.rules state stmt where
  toExpressionRules := expressionRules
  enter hshows _ hstate := R.proceed (R.enterBlock (R.ready hstate) (R.knows hat))
  jump label _ hstate := R.proceed (R.jump (R.ready hstate) label)
  assign expr _ _ hdest _ hstate := R.descend hstate expr (R.rules.sole hdest) nofun
  yield expr _ _ hstate := R.descend hstate expr trivial nofun
  branch hshows _ hstate := by
    refine R.descend hstate _ ⟨R.child (R.knows hat) hshows ?_, fun block hblock => ?_⟩ nofun
    · simp [children]
    · exact R.child (R.knows hat) hshows (by simpa [children] using .inr (.inr hblock))
  loop hshows _ hstate :=
    R.descend hstate _ (R.child (R.knows hat) hshows (by simp [children])) nofun
  ret _ hstate := hinvoke (fun _ hnone => by cases hnone) (R.ready hstate)
  callUnder args hcalls _ hstate := R.bind (R.push (R.ready hstate) (R.within hstate) trivial nofun)
    fun _ _ _ hkont => R.alone (R.call args hkont hcalls)
  team hshows _ hstate := R.startTeam hat hstate hshows
  parallelLoop hshows _ hstate := R.startLoop hat hstate hshows
  critical hshows _ hstate := R.enterCritical hat hstate hshows

/-- A task that stands leads to tasks that stand. -/
theorem step (hstate : R.Stands w state.awake) (hat : ∀ {m block index stmt}, R.rules.Meets m →
    state.control = .stmt block index → state.control.stmt? m.program = some stmt → R.At state stmt) :
    R.Runs w (R.Succeeds state.thread) (step state) := by
  unfold Machine.step
  split
  · exact hinvoke (fun _ hnone => by cases hnone) (R.ready hstate)
  next node _ =>
    refine expressionRules.stepExpression (fun values hvalues w hstate =>
      hinvoke (fun other hother => ?_) (R.ready hstate)) node w hstate
    cases hother
    exact hvalues
  next hcontrol =>
    refine R.view rfl fun m hm => ?_
    split
    next stmt hstmt => exact (statementRules hinvoke (hat hm hcontrol hstmt)).execute w hstate
    next => exact R.refuse rfl

end Steps

end TaskStepRules

namespace StepRules

variable (c : StepRules ι φ)

theorem startBlock (state : State) (task : BlockTask) :
    c.Obeys (·.thread = task.thread) (startBlock state task) := by
  refine c.bind (c.teams _) fun _ _ => c.bind (c.newFrame _ _) fun frame _ => ?_
  refine c.bind (c.forEach _ fun entry => c.privatize _ _ entry.1 entry.2) fun _ _ => ?_
  refine c.bind (c.kont _ _) fun kont _ => c.view rfl fun m _ => ?_
  exact c.bind (c.checked fun fault _ => c.tolerates fault) fun control _ => c.pure rfl

/-- Rules for steps are rules for the steps of tasks in which nothing depends on the world. -/
def taskStepRules : TaskStepRules ι φ where
  toTaskRules := c.taskRules
  teams act _ := c.teams act
  push _ _ _ _ := c.kont _ _
  call args _ _ := c.weaken (c.callFunction _ _ args _) fun _ hcalled => ⟨hcalled.thread, trivial⟩
  newThread _ := c.weaken (c.teams _) fun _ _ => ⟨nofun, trivial⟩
  start _ _ _ _ _ := c.weaken (c.startBlock _ _) fun _ hthread => ⟨hthread, trivial, trivial⟩
  counter type _ _ := c.declareLocal _ _ type
  behind _ _ _ _ _ := c.pure trivial
  wait _ _ _ := c.pure trivial

theorem stores : c.taskStepRules.Stores where
  tolerates := c.tolerates
  returned _ := c.returned
  size hnext := c.look fun _ _ => hnext _
  slot _ hnext := c.look fun _ _ => c.bind (c.checked fun fault _ => c.tolerates fault)
    fun konts _ => hnext konts nofun fun _ _ => ⟨trivial, fun _ => trivial, trivial, c.sound _⟩

/-- Every step keeps to the rules. -/
theorem step (state : State) : c.Permits (step state) := by
  have hstep : c.taskStepRules.Runs () (c.taskStepRules.Succeeds state.thread) (Machine.step state) :=
    TaskStepRules.step (TaskStepRules.invoke c.stores) trivial fun _ _ _ => trivial
  exact c.weaken hstep fun _ _ => trivial

end StepRules

end Machine

end CoreC
