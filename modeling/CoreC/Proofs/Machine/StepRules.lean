import CoreC.Proofs.Machine.Evaluation

/-! # Rules for steps

Beyond evaluation a step writes values that were converted to the class of their place, copies
objects and binds names. Rules for names are kept by these operations as well, whatever they are
given. If making frames keeps to them, so do moving control, calling a function and the start of a
run, and it is known where tasks go on. What becomes of a task that runs an expression or a
statement follows from what becomes of it where continuations are stored or teams are told. If
these operations keep to the rules, so does every step.
-/

namespace CoreC

open Machine Store

/-- The task goes on where the other does, and waits alike. -/
structure State.Replaces (next state : State) : Prop where
  kont : next.kont = state.kont
  thread : next.thread = state.thread
  barrier : next.barrier = state.barrier

/-- What a task waits for once it has left the barrier. -/
def ReleaseMode.waits? (barrier : Barrier) : ReleaseMode → Option Barrier
  | .wait => some barrier
  | .die | .resume => none

/-- The task that goes on behind a continuation. -/
def Continuation.resumed (kont : Continuation) (thread : ThreadId) (waits : Option Barrier) : State :=
  ⟨kont.control, kont.frame, kont.parent, thread, waits⟩

namespace Machine

variable {ι φ α β : Type} [DecidableEq ι] [BEq φ] [Domain ι φ]

/-- The value, if there is one, is of the known sort. -/
def Rules.Hands (r : Rules ι φ) (value : Option (ValueSet ι φ)) : Prop :=
  ∀ values, value = some values → r.Values values

/-- Rules that writing objects keeps to as well. -/
structure WriteRules (ι φ : Type) [DecidableEq ι] [BEq φ] [Domain ι φ] extends Rules ι φ where
  /-- Whether a write may be weak by order. -/
  Forces : Bool → Prop := fun _ => True
  clear : ∀ base, Stores (zeroFill base) := by intros; trivial
  copies : ∀ source dest units,
    Stores (copyUnits source dest units 0) := by intros; trivial
  chars : ∀ address type step text,
    Stores (writeChars address type step text 0) := by intros; trivial
  writes : ∀ {m scalar values converted} address {forceWeak}, Forces forceWeak → Meets m → Values values →
    m.store.convert scalar values = .ok converted →
    Stores (write address converted scalar forceWeak) := by intros; trivial
  strong : Forces false := by exact True.intro
  sole : ∀ {places}, Places places → Forces (1 < places.length) := by intros; trivial

namespace WriteRules

variable (r : WriteRules ι φ)

/-! ## Objects -/

theorem copyObject (source dest : Address) (type : CType) :
    r.Permits (copyObject source dest type) := by
  refine r.view rfl fun m _ => ?_
  refine r.bind (r.checked (m.layouts.raises_layout r.covers _)) fun layout _ => ?_
  exact r.onStore (r.copies source dest _) (throws_copyUnits r.admits source dest _ 0)

/-- Values that were converted to the class of a place are written there. -/
theorem write {m : Machine ι φ} {scalar : Scalar} {values converted : ValueSet ι φ} (address : Address)
    {forceWeak : Bool} (hforce : r.Forces forceWeak) (hm : r.Meets m) (hvalues : r.Values values)
    (hconverted : m.store.convert scalar values = .ok converted) :
    r.Permits (Machine.onStore (write address converted scalar forceWeak)) :=
  r.onStore (r.writes address hforce hm hvalues hconverted) (throws_write r.admits _ _ _ _)

variable {values : ValueSet ι φ} (hvalues : r.Values values)

include hvalues in
theorem writeAs (address : Address) (type : CType) : r.Permits (writeAs address type values) := by
  refine r.view rfl fun m hm => ?_
  refine r.bind (r.checked (m.layouts.raises_scalar r.covers _)) fun scalar _ => ?_
  refine r.bind (r.noted (m.store.raises_convert r.admits _ _)) fun converted hconverted => ?_
  exact r.write address r.strong hm hvalues hconverted

include hvalues in
theorem assignAll {dest : List Address} (hdest : r.Forces (1 < dest.length)) (scalar : Scalar) :
    r.Permits (assignAll dest scalar values) := by
  refine r.view rfl fun m hm => ?_
  refine r.bind (r.noted (m.store.raises_convert r.admits _ _)) fun converted hconverted => ?_
  exact r.forEach dest fun address => r.write address hdest hm hvalues hconverted

theorem fillArray (address : Address) (type : CType) (text : List UInt8) :
    r.Permits (fillArray address type text) := by
  refine r.ite (r.refuse rfl) (r.view rfl fun m _ => ?_)
  refine r.bind (r.checked (m.layouts.raises_scalar r.covers _)) fun scalar _ => ?_
  split
  · refine r.bind (r.checked (m.layouts.raises_sizeOf r.covers _)) fun size _ => ?_
    exact r.onStore (r.chars address _ size _) (throws_writeChars r.admits _ _ _ _ _)
  · exact r.refuse rfl

end WriteRules

namespace Rules

variable (r : Rules ι φ)

/-! ## Values handed on -/

theorem convertReturned (scalar : Option Scalar) {value : Option (ValueSet ι φ)} (hvalue : r.Hands value) :
    r.Obeys (fun converted => r.Hands converted ∧ converted.isSome = value.isSome)
      (convertReturned scalar value) := by
  unfold Machine.convertReturned
  split
  next values scalar =>
    refine r.view rfl fun m hm => ?_
    refine r.bind (r.noted (m.store.raises_convert r.admits _ _)) fun out hout => ?_
    refine r.pure ⟨fun converted hconverted => ?_, rfl⟩
    cases hconverted
    exact r.convert hm (hvalue values rfl) hout
  next => exact r.pure ⟨hvalue, rfl⟩

/-- A task that leaves a barrier may wait there for the others. -/
theorem release (hteams : ∀ act : Teams → PUnit × Teams,
      (∀ teams, teams.lastThread ≤ (act teams).2.lastThread) → r.Permits (onTeams act))
    (state : State) (kont : Continuation) (barrier : Barrier) (mode : ReleaseMode) (leave : Bool) :
    r.Obeys (fun released => released.length ≤ 1 ∧
        ∀ next ∈ released, next = kont.resumed state.thread (mode.waits? barrier))
      (release state kont barrier mode leave) := by
  have hone {next : State} : [next].length ≤ 1 ∧ ∀ other ∈ [next], other = next := by simp
  have hnone {P : State → Prop} : ([] : List State).length ≤ 1 ∧ ∀ other ∈ ([] : List State), P other := by simp
  cases leave with
  | false =>
    cases mode with
    | die => exact r.view rfl fun m _ => r.pure hnone
    | wait | resume => exact r.pure hone
  | true =>
    refine r.bind (hteams _ fun _ => Nat.le_refl _) fun _ _ => ?_
    cases mode with
    | die =>
      refine r.view rfl fun m _ => ?_
      dsimp only
      split
      · exact r.bind (hteams _ fun _ => Nat.le_refl _) fun _ _ => r.pure hnone
      · exact r.pure hnone
    | wait =>
      refine r.bind (hteams _ fun teams => ?_) fun _ _ => r.pure hone
      unfold Teams.leaveTeam
      split <;> exact Nat.le_refl _
    | resume => exact r.pure hone

end Rules

theorem EvalRules.requestedThreads (d : EvalRules ι φ) (state : State) {clauses : List Clause}
    (hclauses : ∀ count, d.Allows state.frame count) :
    d.Permits (requestedThreads state clauses) := by
  refine d.foldEach _ _ fun _ count => d.bind (d.eval state (hclauses count)) fun values _ => ?_
  refine d.bind (d.checked (raises_singleValue d.covers _ _)) fun v _ => ?_
  refine d.bind (d.checked (Value.raises_exactInt d.covers v)) fun n _ => ?_
  exact d.ite (d.done _) (d.refuse rfl)

/-- The address of a variable, once memory was taken for it if it is new. -/
def takeVariable (frame : FrameId) (name : String) (type : CType) : MachineM ι φ Address := do
  let (binding, fresh) ← Machine.onEnv fun env => env.declare frame name type
  if fresh ∨ (← get).settings.frames = .zeroCfa then allocateBinding binding else return binding.address

/-- Rules for evaluation that writing objects and declaring variables keep to as well. -/
structure DeclarationRules (ι φ : Type) [DecidableEq ι] [BEq φ] [Domain ι φ] extends EvalRules ι φ, WriteRules ι φ where
  /-- What names may be bound for a frame. -/
  Names : FrameId → String → Prop := fun _ _ => True
  resolveName : ∀ {frame name}, Names frame name → Obeys (fun _ => True) (resolveName frame name)
  takes : ∀ {frame name} type, Names frame name →
    Obeys (fun _ => True) (takeVariable frame name type)

theorem DeclarationRules.fillObject (d : DeclarationRules ι φ) (state : State) (address : Address)
    (type : CType) {init : NodeId}
    (hinit : d.Allows state.frame init) : d.Permits (fillObject state address type init) := by
  refine d.ite (d.view rfl fun m _ => ?_)
    (d.ite (d.bind (d.addresses state hinit) fun places _ => ?_) ?_)
  · split
    · exact d.fillArray address type _
    · exact d.refuse rfl
  · split
    · exact d.copyObject _ address type
    · exact d.refuse rfl
  · refine d.view rfl fun m _ => ?_
    refine d.bind (d.checked (m.layouts.raises_scalar d.covers _)) fun scalar _ => ?_
    refine d.bind (d.eval state hinit) fun values hvalues => d.view rfl fun m hm => ?_
    refine d.bind (d.noted (m.store.raises_convert d.admits _ _)) fun converted hconverted => ?_
    exact d.write address d.strong hm hvalues hconverted

/-- Rules that writing objects and binding names keep to as well. -/
structure NameRules (ι φ : Type) [DecidableEq ι] [BEq φ] [Domain ι φ] extends WriteRules ι φ where
  resolveName : ∀ frame name, Obeys (fun _ => True) (resolveName frame name)
  declareLocal : ∀ frame name type, Obeys (fun _ => True) (declareLocal frame name type)
  takes : ∀ frame name type, Obeys (fun _ => True) (takeVariable frame name type)
  undetermined : ∀ target, Values (.ofList ([0, 1, 2].map (Value.ofInt target .int))) := by
    intros; exact True.intro
  forces : ∀ forceWeak, Forces forceWeak := by intros; trivial

namespace NameRules

variable (c : NameRules ι φ)

/-! ## Evaluation -/

/-- Under rules for names everything may be evaluated. -/
def toDeclarationRules : DeclarationRules ι φ where
  toWriteRules := c.toWriteRules
  Allows _ _ := True
  child _ _ _ _ := trivial
  blocks := c.allocateBlock c.clear
  resolve frame _ _ _ := c.resolveName frame _
  undetermined target _ _ _ _ _ := c.undetermined target
  resolveName _ := c.resolveName _ _
  takes type _ := c.takes _ _ type

theorem eval (state : State) (node : NodeId) : c.Obeys c.Values (eval state node) :=
  c.toDeclarationRules.eval state trivial

theorem requestedThreads (state : State) (clauses : List Clause) :
    c.Permits (Machine.requestedThreads state clauses) :=
  c.toDeclarationRules.requestedThreads state fun _ => trivial

/-! ## Objects -/

theorem privatize (outer frame : FrameId) (name : String) (how : Privatization) :
    c.Permits (privatize outer frame name how) := by
  refine c.bind (c.resolveName outer name) fun shared _ => ?_
  refine c.bind (c.declareLocal frame name _) fun address _ => ?_
  exact c.ite (c.copyObject _ address _) (c.done _)

theorem bindParameters (frame : FrameId) (params : List (Member × ValueSet ι φ))
    (hparams : ∀ entry ∈ params, c.Values entry.2) :
    c.Permits (bindParameters frame params) := by
  induction params with
  | nil => exact c.done _
  | cons entry rest ih =>
    obtain ⟨hfirst, hrest⟩ := List.forall_mem_cons.mp hparams
    refine c.bind (c.declareLocal frame _ _) fun address _ => c.ite (c.refuse rfl) ?_
    exact c.bind (c.writeAs hfirst address _) fun _ _ => ih hrest

theorem declareGlobal (setup : State) (item : NodeId) : c.Permits (declareGlobal setup item) := by
  refine c.view rfl fun m _ => ?_
  split
  · refine c.ite (c.done _) (c.bind (c.declareLocal _ _ _) fun address _ => ?_)
    refine c.bind (c.onStore (c.clear _) (throws_zeroFill c.admits _)) fun _ _ => ?_
    split
    · exact c.toDeclarationRules.fillObject setup address _ trivial
    · exact c.done _
  · exact c.done _

end NameRules

/-- Rules under which environments may be worked on, and memory may be taken for any variable. -/
structure EnvRules (ι φ : Type) [DecidableEq ι] [BEq φ] [Domain ι φ] extends WriteRules ι φ where
  /-- What is asked of operations on the environment. -/
  Binds : {α : Type} → (Environment → Except Fault (α × Environment)) → Prop := fun _ => True
  onEnv : ∀ {α : Type} {act : Environment → Except Fault (α × Environment)}, Binds act →
    (∀ env, Raises Allowed (act env)) → Obeys (fun _ => True) (Machine.onEnv act)
  declares : ∀ frame name type,
    Binds fun env => env.declare frame name type := by intros; trivial
  resolves : ∀ frame name declared,
    Binds fun env => env.resolve frame name declared := by intros; trivial
  allocates : ∀ (base : Base) (layout : Layout), Stores (allocate base layout) := by
    intros; exact True.intro
  undetermined : ∀ target : Target, Values (.ofList ([0, 1, 2].map (Value.ofInt target .int))) := by
    intros; exact True.intro
  forces : ∀ forceWeak, Forces forceWeak := by intros; trivial

namespace EnvRules

variable (c : EnvRules ι φ)

theorem allocateBinding (binding : Binding) : c.Permits (allocateBinding binding) := by
  refine c.view rfl fun m _ => ?_
  refine c.bind (c.checked (m.layouts.raises_layout c.covers _)) fun layout _ => ?_
  exact c.onStore (c.allocates _ layout) (throws_allocate c.covers _ layout)

theorem declare (frame : FrameId) (name : String) (type : CType) :
    c.Permits (Machine.onEnv fun env => env.declare frame name type) :=
  c.onEnv (c.declares frame name type) fun env => env.raises_declare c.covers frame name type

def nameRules : NameRules ι φ where
  toWriteRules := c.toWriteRules
  resolveName frame name := by
    refine c.view rfl fun m _ => ?_
    refine c.bind (c.onEnv (c.resolves _ _ _) fun env => env.raises_resolve c.covers _ _ _) fun _ _ => ?_
    exact c.ite (c.bind (c.allocateBinding _) fun _ _ => c.done _) (c.done _)
  declareLocal frame name type := c.bind (c.declare frame name type) fun _ _ => c.allocateBinding _
  takes frame name type := c.bind (c.declare frame name type) fun _ _ => c.view rfl fun _ _ =>
    c.ite (c.allocateBinding _) (c.done _)
  undetermined := c.undetermined
  forces := c.forces

end EnvRules

/-- Rules for names that making frames keeps to as well. -/
structure FrameRules (ι φ : Type) [DecidableEq ι] [BEq φ] [Domain ι φ] extends NameRules ι φ where
  newFrame : ∀ scope parent, Obeys (fun _ => True) (newFrame scope parent)
  setGlobal : ∀ global, Obeys (fun _ => True)
    (Machine.onEnv fun env => (env.setGlobal global).map fun env => (PUnit.unit, env))
  keepJump : ∀ outer block frame, Obeys (fun _ => True)
    (modify fun m => { m with env := m.env.keepJump outer block frame })

namespace FrameRules

variable (c : FrameRules ι φ)

/-! ## Moving control -/

theorem innerFrame (keep : Bool) (outer : FrameId) (block : NodeId) :
    c.Permits (innerFrame keep outer block) := by
  refine c.view rfl fun m _ => ?_
  dsimp only
  split
  · exact c.done _
  · refine c.bind (c.newFrame _ _) fun frame _ => ?_
    exact c.ite (c.bind (c.keepJump outer block frame) fun _ _ => c.done _) (c.done _)

theorem frameFor (start : FrameId) (block : NodeId) (keep : Bool) :
    c.Permits (frameFor start block keep) := by
  refine c.view rfl fun m _ => ?_
  refine c.bind (c.checked (Environment.raises_findAlong c.covers _ _)) fun found _ => ?_
  split
  · exact c.refuse rfl
  · exact c.foldEach _ _ fun outer inner => c.innerFrame keep outer inner

/-! ## Calls and the start of a run -/

theorem callFunction (state : State) (function : NodeId) (args : List NodeId) (kont : KontAddress) :
    c.Obeys (·.Replaces { state.awake with kont }) (callFunction state function args kont) := by
  refine c.view rfl fun m _ => ?_
  split
  · refine c.ite (c.refuse rfl) (c.bind (c.mapM args fun arg _ => c.eval state arg) fun values hvalues => ?_)
    refine c.bind (c.newFrame _ _) fun frame _ => ?_
    refine c.bind (c.bindParameters frame _ fun entry hentry => ?_) fun _ _ =>
      c.view rfl fun m _ => ?_
    · exact hvalues.2 _ (List.of_mem_zip hentry).2
    · refine c.bind (c.checked (Control.raises_enter c.covers _ _)) fun control _ => ?_
      exact c.pure ⟨rfl, rfl, rfl⟩
  · exact c.refuse rfl

/-- The first task of a program is run by the first thread and has nothing in front of it. -/
theorem start : c.Obeys (·.Replaces ⟨.invoke, 0, halt, 0, none⟩) start := by
  refine c.view rfl fun m _ => c.bind (c.newFrame _ _) fun global _ => ?_
  refine c.bind (c.forEach _ fun item => c.declareGlobal _ item) fun _ _ => ?_
  refine c.bind (c.setGlobal _) fun _ _ => c.view rfl fun m _ => ?_
  split
  · exact c.refuse rfl
  · split
    · refine c.bind (c.newFrame _ _) fun frame _ => ?_
      refine c.bind (c.forEach _ fun param => ?_) fun _ _ => c.view rfl fun m _ => ?_
      · exact c.bind (c.declareLocal _ _ _) fun _ _ => c.done _
      · refine c.bind (c.checked (Control.raises_enter c.covers _ _)) fun control _ => ?_
        exact c.pure ⟨rfl, rfl, rfl⟩
    · exact c.refuse rfl

end FrameRules

/-- Where any work on the environment is fine, making frames is. -/
def EnvRules.frameRules (c : EnvRules ι φ)
    (hbinds : ∀ {α : Type} (act : Environment → Except Fault (α × Environment)), c.Binds act)
    (hkeep : ∀ outer block frame,
      c.Permits (modify fun m => { m with env := m.env.keepJump outer block frame })) : FrameRules ι φ where
  toNameRules := c.nameRules
  newFrame _ _ := c.onEnv (hbinds _) fun _ => .ok _
  setGlobal _ := c.onEnv (hbinds _) fun env => (env.raises_setGlobal c.covers _).map _
  keepJump := hkeep

/-! ## Expressions and statements -/

/-- What becomes of a task that evaluates an expression. -/
structure ExpressionRules (d : DeclarationRules ι φ) (state : State) where
  Takes : MachineM ι φ (List State) → Prop
  /-- Everything may be evaluated. -/
  free : ∀ frame node, d.Allows frame node := by intros; trivial
  names : ∀ frame name, d.Names frame name := by intros; trivial
  throw : ∀ {fault}, d.Allowed fault → Takes (MonadExcept.throw fault)
  bind : ∀ {β : Type} {P : β → Prop} {act : MachineM ι φ β} {next : β → MachineM ι φ (List State)},
    d.Obeys P act → (∀ b, P b → Takes (next b)) → Takes (act >>= next)
  view : ∀ {next}, (∀ {m konts}, next { m with konts } = next m) →
    (∀ m, d.Meets m → Takes (next m)) → Takes (MonadState.get >>= next)
  advance : Takes (advance state)
  call : ∀ {function : NodeId} (args : List NodeId), d.Calls function →
    Takes (do return [← callFunction state function args state.kont])

namespace ExpressionRules

variable {d : DeclarationRules ι φ} {state : State} (k : ExpressionRules d state)

theorem ite {p : Prop} [Decidable p] {yes no : MachineM ι φ (List State)} (hyes : k.Takes yes)
    (hno : k.Takes no) : k.Takes (if p then yes else no) := by
  split
  · exact hyes
  · exact hno

include k in
theorem userFunction (callee : NodeId) : d.Obeys (fun found => ∀ id ∈ found, d.Calls id)
    (userFunction (eval state) state.frame callee) :=
  d.userFunction (fun _ hnode => d.eval state hnode) (k.free _ _)

/-- A function of the program is called, any other expression has a value. -/
theorem stepExpression (hvalue : ∀ values, d.Values values → k.Takes (invoke state.kont (some values) state))
    (node : NodeId) : k.Takes (stepExpression state node) := by
  refine k.view rfl fun m _ => ?_
  dsimp only
  split
  -- Only a call is looked up; the two cases then go the same way.
  case' h_1 => refine k.bind (k.userFunction _) fun function hfunction => ?_
  case' h_2 =>
    refine k.bind (P := fun function => ∀ id ∈ function, d.Calls id)
      (d.pure fun _ hnone => by cases hnone) fun function hfunction => ?_
  all_goals
    refine k.view rfl fun m _ => ?_
    split
    · exact k.call _ (hfunction _ rfl)
    · exact k.bind (d.eval state (k.free _ _)) hvalue

end ExpressionRules

/-- What becomes of a task that runs a statement. -/
structure StatementRules (d : DeclarationRules ι φ) (state : State)
    (stmt : NodeId) extends ExpressionRules d state where
  enter : ∀ {items}, d.Shows stmt (.compound items) → Takes (do return [← enterBlock state stmt])
  jump : ∀ label : String, Takes (jump state label)
  assign : ∀ expr {dest} scalar, d.Places dest → Takes (descend state expr (.assign dest scalar))
  yield : ∀ (expr : NodeId) (scalar : Option Scalar), Takes (descend state expr (.ret scalar))
  branch : ∀ {cond thenBlock : NodeId} {elseBlock : Option NodeId},
    d.Shows stmt (.branch cond thenBlock elseBlock) →
    Takes (descend state cond (.branch thenBlock elseBlock))
  loop : ∀ {cond body : NodeId}, d.Shows stmt (.loop cond body) →
    Takes (descend state cond (.loop body))
  ret : Takes (invoke state.kont none state)
  callUnder : ∀ {function : NodeId} (args : List NodeId), d.Calls function → Takes (do
    let kont ← pushKont ⟨.call, state.control, state.frame, state.kont⟩ state.thread
    return [← callFunction state function args kont])
  team : ∀ {clauses : List Clause} {block : NodeId}, d.Shows stmt (.parallel clauses block) →
    Takes (startTeam state stmt clauses block)
  parallelLoop : ∀ {clauses : List Clause} {var : String} {init bound step body : NodeId}
    {condOp stepOp : BinOp},
    d.Shows stmt (.parallelFor clauses var init condOp bound stepOp step body) →
    Takes (startLoop state stmt clauses var init condOp bound stepOp step body)
  critical : ∀ {name : Option String} {block : NodeId}, d.Shows stmt (.critical name block) →
    Takes (enterCritical state stmt block)

namespace StatementRules

variable {d : DeclarationRules ι φ} {state : State} {stmt : NodeId} (k : StatementRules d state stmt)

theorem runDeclaration (name : String) (type : CType) (init : Option NodeId) :
    k.Takes (runDeclaration state name type init) := by
  have hdeclare {next} (hnext : ∀ address, k.Takes (next address)) : k.Takes (do
        let (binding, fresh) ← Machine.onEnv fun env => env.declare state.frame name type
        if fresh ∨ (← get).settings.frames = .zeroCfa then allocateBinding binding >>= next
        else next binding.address) := by
    have htake := k.bind (d.takes type (k.names state.frame name)) fun address _ => hnext address
    simp only [takeVariable, bind_assoc] at htake
    convert htake using 5
    split <;> rfl
  refine k.ite k.advance ?_
  cases init with
  | none => exact hdeclare fun _ => k.advance
  | some init =>
    refine hdeclare fun address => k.ite ?_ (k.view rfl fun m _ => ?_)
    · exact k.bind (d.fillObject state address type (k.free _ _)) fun _ _ => k.advance
    · refine k.bind (d.checked (m.layouts.raises_scalar d.covers _)) fun scalar _ => ?_
      exact k.assign init scalar (d.place address)

theorem runAssignment (target value : NodeId) : k.Takes (runAssignment state target value) := by
  refine k.bind (d.staticType (k.free _ _)) fun type _ => ?_
  refine k.bind (d.addresses state (k.free _ _)) fun dest hdest => k.ite ?_ ?_
  · refine k.bind (d.addresses state (k.free _ _)) fun sources _ => ?_
    refine k.bind (d.forEach _ fun address => d.forEach _ fun source => ?_) fun _ _ => k.advance
    exact d.copyObject source address type
  · refine k.view rfl fun m _ => ?_
    refine k.bind (d.checked (m.layouts.raises_scalar d.covers _)) fun scalar _ => ?_
    exact k.assign value scalar hdest

/-- Running a statement, one case for each kind. -/
theorem execute : k.Takes (execute state stmt) := by
  have heffect : k.Takes (do let _ ← eval state stmt; advance state) :=
    k.bind (d.eval state (k.free _ _)) fun _ _ => k.advance
  refine k.bind (d.constructAt stmt) fun construct hshows => ?_
  cases construct with
  | decl name type init => exact k.runDeclaration name type init
  | assignment target value => exact k.runAssignment target value
  | branch => exact k.branch hshows
  | loop => exact k.loop hshows
  | compound items => exact k.enter hshows
  | ret value =>
    cases value with
    | some value =>
      refine k.view rfl fun m _ => ?_
      refine k.bind (d.checked (m.raises_returnScalar d.covers stmt)) fun scalar _ => ?_
      exact k.yield value scalar
    | none => exact k.ret
  | goto label => exact k.jump label
  | empty | structDecl | funcDef => exact k.advance
  | call callee args =>
    refine k.bind (k.userFunction callee) fun function hfunction => ?_
    cases function with
    | some function => exact k.callUnder args (hfunction function rfl)
    | none => exact heffect
  | parallel => exact k.team hshows
  | parallelFor => exact k.parallelLoop hshows
  | critical => exact k.critical hshows
  | label | file => exact k.throw (d.covers _ rfl)
  | id | literal | binary | unary | cast | sizeOf | index => exact heffect

end StatementRules

/-- Starts a task for each item, in a thread of its own that has a place in its team. -/
def startAll {γ : Type} (state : State) (task : ThreadId → BlockTask)
    (place : List State → ThreadId → Teams → Teams) (furnish : γ → State → MachineM ι φ PUnit) :
    List γ → List State → MachineM ι φ (List State)
  | [], started => return started.reverse
  | item :: rest, started => do
      let thread ← onTeams Teams.newThread
      onTeams fun teams => (PUnit.unit, place started thread teams)
      let worker ← startBlock state (task thread)
      furnish item worker
      startAll state task place furnish rest (worker :: started)

/-- Workers have numbers in their team. -/
theorem startWorkers_eq (state : State) (task : ThreadId → BlockTask) (size count : Nat) {first : Nat}
    {started : List State} (hfirst : first = started.length) :
    (startWorkers state task size count first started : MachineM ι φ (List State)) = startAll state task
      (fun started thread teams => teams.enterTeam thread ⟨started.length, size, false⟩)
      (fun _ _ => pure ⟨⟩) (.replicate count ()) started := by
  induction count generalizing first started with
  | zero => rfl
  | succ count ih =>
    subst hfirst
    exact bind_congr fun thread => bind_congr fun _ => bind_congr fun worker => ih rfl

/-- Iterations have a counter. -/
theorem startIterations_eq (state : State) (task : ThreadId → BlockTask) (var : String) (type : CType)
    (values : List (Value ι φ)) (started : List State) :
    startIterations state task var type values started = startAll state task
      (fun _ thread teams => teams.inherit state.thread thread)
      (fun v iteration => do writeAs (← declareLocal iteration.frame var type) type (.singleton v))
      values started := by
  induction values generalizing started with
  | nil => rfl
  | cons v rest ih => simp only [startIterations, startAll, bind_assoc, ih]

/-- Rules for frames that all operations of a step keep to, whatever fault comes of them. -/
structure StepRules (ι φ : Type) [DecidableEq ι] [BEq φ] [Domain ι φ] extends FrameRules ι φ where
  tolerates : ∀ fault, Allowed fault := by intros; trivial
  /-- A step looks at continuations as well. -/
  look : ∀ {α : Type} {Q : α → Prop} {next : Machine ι φ → MachineM ι φ α},
    (∀ m, Meets m → Obeys Q (next m)) → Obeys Q (MonadState.get >>= next)
  kont : ∀ kont thread, Obeys (fun _ => True) (pushKont kont thread)
  teams : ∀ {α : Type} (act : Teams → α × Teams), Obeys (fun _ => True) (onTeams act)
  returned : ∀ text : String, Obeys (fun _ => True) (modify fun m => { m with returned := some text })

end Machine

end CoreC
