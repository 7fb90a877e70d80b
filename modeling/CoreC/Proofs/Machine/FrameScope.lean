import CoreC.Proofs.Machine.Frames
import CoreC.Proofs.Machine.MutualExclusion

/-! # Frames agree with control

Whatever moves control gives the task an activation of the block that it moves to: running
off a block, branches, loops, calls, returns, jumps, and the ends of regions and critical
sections. The one exception is a parallel loop that ends a nested block. The task that met it
goes on outside the block in the frame of the inside, and so on through further parallel
loops, until any other statement moves it.
-/

namespace CoreC.Machine

open Control Secures

variable {block node owner : NodeId} {construct : Construct} {settings : Settings} {p : Program}
variable {ι φ : Type} {o : Outline} {kont : Continuation}

theorem mem_of_getElem?_write {t : KontTable} {address other : KontAddress}
    {merge : Bool} {konts : List Continuation}
    (hslot : (t.write address kont merge).slots[other]? = some konts) {held : Continuation}
    (hheld : held ∈ konts) : held = kont ∨ ∃ old, t.slots[other]? = some old ∧ held ∈ old := by
  unfold KontTable.write at hslot
  dsimp only at hslot
  rw [Std.TreeMap.getElem?_insert] at hslot
  split at hslot
  next hsame =>
    rw [Std.compare_eq_iff_eq] at hsame
    subst hsame
    cases hslot
    cases merge with
    | false => exact .inl (by simpa using hheld)
    | true =>
      have hmem : held = kont ∨ held ∈ t.slots.getD address [] := by
        rw [if_pos rfl] at hheld
        split at hheld
        · exact .inr hheld
        · simpa [or_comm] using hheld
      refine hmem.imp id fun hmem => ?_
      rw [Std.TreeMap.getD_eq_getD_getElem?] at hmem
      cases hold : t.slots[address]? with
      | none => simp [hold] at hmem
      | some old => exact ⟨old, rfl, by simpa [hold] using hmem⟩
  next => exact .inr ⟨konts, hslot, hheld⟩

variable {l : Layouts} {heap : HeapPolicy}

theorem guards_pushKont {m : Machine ι φ} (hkont : kont.Inside o) (hframe : ∃ scope, m.Activates scope kont.frame)
    (thread : ThreadId) : Guards o l heap m (fun m _ => ∃ scope, m.Activates scope kont.frame)
    (pushKont kont thread) := by
  rintro m hm rfl
  refine ⟨⟨⟨⟨hm.policy, hm.below, hm.jumps⟩, hm.outline, fun hslot held hheld => ?_⟩, hm.layouts, hm.ranked,
    fun hslot held hheld => ?_, hm.housed.store, hm.housed.homes⟩, growing.refl m, fun _ _ hrun => ?_⟩
  · rcases mem_of_getElem?_write hslot hheld with rfl | ⟨old, hold, hmem⟩
    · exact hkont
    · exact hm.konts hold held hmem
  · rcases mem_of_getElem?_write hslot hheld with rfl | ⟨old, hold, hmem⟩
    · exact hframe
    · exact hm.hosted hold held hmem
  · cases hrun
    exact hframe

variable {state : State}

/-! ## Parallel constructs -/

variable {m : Machine ι φ}

/-- The task that goes on behind a parallel loop keeps its frame: it fits, or it drifts. -/
theorem fits_behind (ho : o.Tree) {index : Nat} (hcontrol : state.control = .stmt block index)
    (hstmt : state.control.stmt? o.program = some node) (hloop : isParallelLoop o node = true)
    {successor : Control} (hafter : afterStmt o node = .ok successor) (hstate : Fits o m state) :
    Fits o m (state.goto successor) := by
  obtain ⟨scope, hactivates, hdrifts⟩ := hstate.frame
  replace hdrifts := hdrifts block (by rw [hcontrol]; rfl)
  refine ⟨inside_afterStmt ho hafter, scope, hactivates, fun outer houter hne => ?_⟩
  by_cases hscope : scope = block
  · subst hscope
    have hreached : o.Reaches scope := (hstate.inside scope (by rw [hcontrol]; rfl)).1
    rw [hcontrol] at hstmt
    cases successor with
    | stmt outer' next =>
      cases houter
      refine .out hloop ?_ hafter
      simpa [staysBehind, (ho.place_of_stmt? hreached hstmt).2, hafter] using Ne.symm hne
    | expr | invoke => cases houter
  · exact .on (hdrifts hscope) hstmt hloop hafter

theorem settled_new (hframes : settings.frames = .concrete) (hnew : Machine.new p settings = .ok m) :
    m.outline.Tree ∧ Settled m.outline (.ofProgram settings.target p) settings.heap m := by
  obtain ⟨outline, houtline, hreturn⟩ := exists_of_bind_ok hnew
  cases hreturn
  refine ⟨(Outline.tree_ofProgram houtline).1, ⟨⟨⟨hframes, ?_, ?_⟩, rfl, ?_⟩, rfl, ?_, ?_,
    fun _ => ⟨Store.sound_new _ _ _, rfl, ?_⟩, fun _ => ?_⟩⟩
  · simp [Environment.new]
  · simp [Environment.new, Environment.jumpFrame?]
  · simp [KontTable.empty]
  · simp [Environment.new, Environment.Ranked]
  · simp [KontTable.empty]
  · simp [Store.new]
  · simp [Store.new, Store.size?]

variable [DecidableEq ι] [BEq φ] [Domain ι φ]

/-! ## Steps -/

theorem construct_of_shows (ho : o.Tree) (hshows : (shapeRules (ι := ι) (φ := φ) ho l).Shows node construct) :
    o.program.construct? node = some construct := (shapeRules ho l).construct_of_shows (fun _ hm => hm.1) hshows

/-- Control moves to activations of blocks. -/
def scopes (ho : o.Tree) (l : Layouts) (heap : HeapPolicy) : TaskRules ι φ where
  rules := (shapeRules ho l).toDeclarationRules
  World := Machine ι φ
  Later := Grows
  Runs := Guards o l heap
  Stands := Fits o
  Ready m frame _ _ _ := ∃ scope, m.Activates scope frame
  Found m block frame := (∃ scope, m.Activates scope frame) ∧
    ((o.program.blockItems? block).isSome → m.Activates block frame)
  Within control := control.Inside o
  Knows := o.Reaches
  later := growing
  pure ha := .pure growing fun _ _ hm => hm ▸ ha
  throw _ := .throw growing _
  bind := .bind_at growing
  view _ hnext := read fun m hm _ => hnext m ⟨hm.outline, hm.layouts⟩
  inner := .inner
  lasts := Fits.later
  remains := Grows.exists_scope
  stands hready hinside hfound := .of_activates hinside hready fun block hblock =>
    (hfound block hblock).2 (hinside block hblock).2
  found _ hfound := hfound.1
  frameFor := guards_frameFor
  successor hm hinside hnext := inside_successor ho hinside (hm.1 ▸ hnext)
  enter hm hblock henter := inside_enter ho hblock (hm.1 ▸ henter)
  position hm hplace other hother := by
    cases hother
    exact ho.hasBlock_position (hm.1 ▸ hplace)

variable (ho : o.Tree)

include ho

/-- A task starts in the block of a directive or a function. -/
theorem guards_entered {m : Machine ι φ} (howner : o.Reaches owner)
    (hconstruct : o.program.construct? owner = some construct) (howns : construct.ownsBlock = true)
    (hblock : block ∈ construct.children) {frame : FrameId} (hframe : m.Activates block frame)
    (kont : KontAddress) (thread : ThreadId) :
    Guards o l heap m (fun m worker => worker.thread = thread ∧ Fits o m worker) (do
      let control ← check (enter (← get).outline block)
      return ⟨control, frame, kont, thread, none⟩) := by
  let R := scopes (ι := ι) (φ := φ) ho l heap
  refine R.view rfl fun seen hseen => ?_
  refine R.after Grows.activates hframe (R.rules.noted fun _ _ => trivial) fun _ control hframe henter => ?_
  rw [show seen.outline = o from hseen.1] at henter
  refine R.pure ⟨rfl, .of_activates ?_ ⟨_, hframe⟩ fun other hother => ?_⟩
  · exact inside_enter ho (ho.reaches_child howner hconstruct hblock) henter
  · rcases enter_owned ho howner hconstruct howns hblock henter with rfl | rfl
    · cases hother
      exact hframe
    · cases hother

theorem guards_startBlock {m : Machine ι φ} {task : BlockTask} (howner : o.Reaches owner)
    (hconstruct : o.program.construct? owner = some construct) (hof : task.Of owner construct)
    (hresume : task.resume.Inside o) (houter : ∃ scope, m.Activates scope state.frame) :
    Guards o l heap m (fun m worker => worker.thread = task.thread ∧ Fits o m worker) (startBlock state task) := by
  let R := scopes (ι := ι) (φ := φ) ho l heap
  obtain ⟨howns, hblock⟩ : construct.ownsBlock = true ∧ task.block ∈ construct.children := by
    cases hof <;> exact ⟨rfl, by simp [Construct.children]⟩
  refine R.after Grows.exists_scope houter (.onTeams _) fun _ _ houter _ => ?_
  refine R.carry Grows.exists_scope houter (guards_newFrame _ _ (by simpa using houter)) fun _ frame houter hframe => ?_
  have hlasts {m m' : Machine ι φ} (hgrows : Grows m m') (hm : m.Activates task.block frame ∧
    ∃ scope, m.Activates scope state.frame) :
      m'.Activates task.block frame ∧ ∃ scope, m'.Activates scope state.frame :=
    ⟨hgrows.activates hm.1, hgrows.exists_scope hm.2⟩
  refine R.after hlasts ⟨hframe, houter⟩ (R.rules.forEach _ fun entry => ?_) fun _ _ hboth _ => ?_
  · exact (shapeRules ho l).privatize _ frame entry.1 entry.2
  · refine R.carry Grows.activates hboth.1 (guards_pushKont ?_ hboth.2 _) fun _ kont hframe _ => ?_
    · exact ⟨hresume, fun hkind => (nomatch hkind), fun hkind => (nomatch hkind)⟩
    · exact guards_entered ho howner hconstruct howns hblock hframe kont task.thread

theorem guards_callFunction (m : Machine ι φ) {function : NodeId} (hfunction : o.Reaches function)
    (args : List NodeId) (kont : KontAddress) :
    Guards o l heap m (fun m called => called.thread = state.thread ∧ Fits o m called)
      (callFunction state function args kont) := by
  let R := scopes (ι := ι) (φ := φ) ho l heap
  let d := shapeRules (ι := ι) (φ := φ) ho l
  refine R.view rfl fun seen hseen => ?_
  rw [program, show seen.outline = o from hseen.1]
  split
  next name returns params body hconstruct =>
    refine R.ite (R.refuse rfl) (R.bind (R.inner (d.mapM args fun arg _ => d.eval state arg)) fun _ _ _ _ => ?_)
    refine R.bind (guards_newFrame _ body nofun) fun _ frame _ hframe => ?_
    refine R.after Grows.activates hframe (d.bindParameters frame _ fun _ _ => trivial) fun _ _ hframe _ => ?_
    exact guards_entered ho hfunction hconstruct rfl (List.mem_singleton_self body) hframe _ _
  next => exact R.refuse rfl

/-- Every operation of a step moves tasks to activations of blocks, or lets them drift. -/
def scoping (l : Layouts) (heap : HeapPolicy) : TaskStepRules ι φ where
  toTaskRules := scopes ho l heap
  At state stmt := ∃ block index, state.control = .stmt block index ∧
    state.control.stmt? o.program = some stmt ∧ o.Reaches stmt
  ready := fun ⟨_, scope, hactivates, _⟩ => ⟨scope, hactivates⟩
  within hstate := hstate.inside
  apart hnone block hblock := by
    rw [hnone] at hblock
    cases hblock
  afterStmt hm hafter := inside_afterStmt ho (hm.1 ▸ hafter)
  knows := fun ⟨_, _, _, _, hreached⟩ => hreached
  child hnode hshows := ho.reaches_child hnode (construct_of_shows ho hshows)
  teams act _ := .onTeams act
  push hready hinside hsound _ := by
    refine guards_pushKont ⟨hinside, fun hkind => ?_, fun hkind => ?_⟩ hready _
    all_goals
      rw [hkind] at hsound
      exact hsound
  call args _ hfunction := guards_callFunction ho _ hfunction args _
  newThread hstate := (scopes ho l heap).weaken (Guards.inner (.onTeams _)) fun _ _ hgrows _ =>
    ⟨nofun, hgrows.exists_scope (hstate.frame.imp fun _ => And.left)⟩
  start hat hshows hof hresume hready := by
    obtain ⟨_, _, _, _, hreached⟩ := hat
    refine weaken (guards_startBlock ho hreached (construct_of_shows ho hshows) hof hresume hready) ?_
    exact fun _ _ hworker => ⟨hworker.1, hworker.2, trivial⟩
  counter type _ _ := .inner ((shapeRules ho l).declareLocal _ _ type)
  behind hat hshows hm hafter hstate := .pure growing fun _ _ hsame => by
    obtain ⟨_, _, hcontrol, hstmt, -⟩ := hat
    have hbehind := fits_behind ho hcontrol hstmt (by simp [isParallelLoop, construct_of_shows ho hshows])
      (hm.1 ▸ hafter) ⟨hstate.inside, hstate.frame⟩
    subst hsame
    split
    · exact hbehind
    · exact ⟨hbehind.inside, hbehind.frame⟩
  wait _ _ hstate := .pure growing fun _ _ hsame => hsame ▸ ⟨hstate.inside, hstate.frame⟩

theorem scoping_stores : (scoping (ι := ι) (φ := φ) ho l heap).Stores where
  tolerates _ := trivial
  returned _ _ := Guards.inner (.aside fun m => ⟨rfl, rfl, rfl, .refl m.env, fun h => ⟨h.store, h.homes⟩⟩)
  size hnext m := hnext _ m
  slot _ hnext := secures_slot growing fun konts hm hslot => by
    refine hnext konts (by rintro ⟨⟩) fun kont hkont => ?_
    obtain ⟨hinside, hbranch, hloop⟩ := hm.konts hslot kont hkont
    have hframe := hm.hosted hslot kont hkont
    refine ⟨hframe, fun _ => hframe, hinside, ?_⟩
    cases hkind : kont.kind with
    | branch => exact hbranch hkind
    | loop => exact hloop hkind
    | _ => trivial

theorem guards_step {m : Machine ι φ} (hstate : Fits o m state) :
    Guards o l heap m (fun m states => AllFit o states m) (step state) := by
  have hawake : Fits o m state.awake := ⟨hstate.inside, hstate.frame⟩
  have hstep : (scoping ho l heap).Runs m ((scoping ho l heap).Succeeds state.thread) (step state) := by
    refine TaskStepRules.step (TaskStepRules.invoke (scoping_stores ho)) hawake fun {seen block _ _} hseen hcontrol hstmt => ?_
    rw [program, show seen.outline = o from hseen.1] at hstmt
    have hblock : o.Reaches block := (hstate.inside block (by rw [hcontrol]; rfl)).1
    exact ⟨block, _, hcontrol, hstmt, (ho.place_of_stmt? hblock (hcontrol ▸ hstmt)).1⟩
  exact weaken hstep fun states m' hstates => hstates.2

/-- The first task of a program stands in the body of `main`. -/
theorem guards_start (m : Machine ι φ) : Guards o l heap m (Fits o) start := by
  let R := scopes (ι := ι) (φ := φ) ho l heap
  let d := shapeRules (ι := ι) (φ := φ) ho l
  refine R.view rfl fun seen hseen => R.bind (guards_newFrame _ _ nofun) fun _ global _ _ => ?_
  refine R.bind (R.inner (d.forEach _ fun item => d.declareGlobal _ item)) fun _ _ _ _ => ?_
  refine R.bind (R.inner (P := fun _ => True) (Shapely.onEnv (Q := fun _ _ => True) fun hset => ?_)) fun _ _ _ _ => ?_
  · obtain ⟨env, hset, heq⟩ := exists_of_map_ok hset
    cases heq
    exact ⟨Environment.sameShape_setGlobal hset, trivial⟩
  · refine R.view rfl fun seen' hseen' => ?_
    split
    · exact R.refuse rfl
    next main hmain =>
      rw [program, show seen.outline = o from hseen.1]
      split
      next name returns params body hconstruct =>
        refine R.bind (guards_newFrame _ body nofun) fun _ frame _ hframe => ?_
        refine R.after Grows.activates hframe (d.forEach params fun param => ?_) fun _ _ hframe _ => ?_
        · exact d.bind (d.declareLocal frame _ _) fun _ _ => d.done _
        · refine weaken (guards_entered ho ?_ hconstruct rfl (List.mem_singleton_self body) hframe _ _)
            fun _ _ hfirst => hfirst.2
          exact d.calls hseen' hmain
      next => exact R.refuse rfl

end CoreC.Machine

namespace CoreC.Config

variable {ι φ : Type} [DecidableEq ι] [BEq φ] [Domain ι φ]

/-- The configurations that steps lead to, with all tasks that ever came about: any of them
may be stepped next, whether it waits or not, and again after it was stepped; a step that
fails leaves its machine behind. -/
inductive Arises (p : Program) (settings : Settings) : Config ι φ → Prop where
  | start {m m' : Machine ι φ} {first : State} (hnew : Machine.new p settings = .ok m)
      (hstart : Machine.start m = .ok first m') : Arises p settings ⟨m', [first]⟩
  | step {m m' : Machine ι φ} {live states : List State} {state : State}
      (harises : Arises p settings ⟨m, live⟩) (hstate : state ∈ live)
      (hstep : Machine.step state m = .ok states m') : Arises p settings ⟨m', states ++ live⟩
  | fail {m m' : Machine ι φ} {live : List State} {state : State} {fault : Fault}
      (harises : Arises p settings ⟨m, live⟩) (hstate : state ∈ live)
      (hstep : Machine.step state m = .error fault m') : Arises p settings ⟨m', live⟩
  | wake {m : Machine ι φ} {live : List State} {state : State}
      (harises : Arises p settings ⟨m, live⟩) (hstate : state ∈ live) :
      Arises p settings ⟨m, state.awake :: live⟩

variable {settings : Settings} {p : Program}

theorem Arises.allFit (hframes : settings.frames = .concrete) {c : Config ι φ}
    (harises : c.Arises p settings) :
    c.machine.outline.Tree ∧ Machine.Settled c.machine.outline (.ofProgram settings.target p) settings.heap c.machine ∧
      Machine.AllFit c.machine.outline c.live c.machine := by
  induction harises with
  | @start m m' first hnew hstart =>
    obtain ⟨htree, hm⟩ := Machine.settled_new hframes hnew
    obtain ⟨hm', -, hfirst⟩ := Machine.guards_start htree m m hm rfl
    rw [leaves_of_ok hstart] at hm'
    rw [hm'.outline]
    exact ⟨htree, hm', List.forall_mem_singleton.mpr (hfirst _ _ hstart)⟩
  | @step m m' live states state _ hstate hstep ih =>
    obtain ⟨htree, hm, hlive⟩ := ih
    obtain ⟨hm', hgrows, hstates⟩ := Machine.guards_step htree (hlive state hstate) m hm rfl
    rw [leaves_of_ok hstep] at hm' hgrows
    rw [hm'.outline]
    refine ⟨htree, hm', List.forall_mem_append.mpr ⟨hstates _ _ hstep, ?_⟩⟩
    exact hlive.later hgrows
  | @fail m m' live state fault _ hstate hstep ih =>
    obtain ⟨htree, hm, hlive⟩ := ih
    obtain ⟨hm', hgrows, -⟩ := Machine.guards_step htree (hlive state hstate) m hm rfl
    rw [leaves_of_error hstep] at hm' hgrows
    rw [hm'.outline]
    exact ⟨htree, hm', hlive.later hgrows⟩
  | @wake m live state _ hstate ih =>
    obtain ⟨htree, hm, hlive⟩ := ih
    have hawake := hlive state hstate
    refine ⟨htree, hm, List.forall_mem_cons.mpr ⟨⟨hawake.inside, hawake.frame⟩, hlive⟩⟩

/-- Steps in an order that minds barriers are steps. -/
theorem Reachable.arises {c : Config ι φ} (hreach : c.Reachable p settings) :
    ∃ live, c.live ⊆ live ∧ Arises p settings ⟨c.machine, live⟩ := by
  induction hreach with
  | start hnew hstart => exact ⟨_, List.Subset.refl _, .start hnew hstart⟩
  | @step m m' before after states state _ _ hstep _ ih =>
    obtain ⟨live, hlive, harises⟩ := ih
    obtain ⟨hbefore, hstate, hafter⟩ : before ⊆ live ∧ state ∈ live ∧ after ⊆ live := by
      simpa using hlive
    refine ⟨states ++ live, ?_, .step harises hstate hstep⟩
    have hold {some} (hsome : some ⊆ live) : some ⊆ states ++ live :=
      fun _ hmem => List.mem_append_right states (hsome hmem)
    simp [hold hbefore, hold hafter]
  | @wake m before after state barrier _ _ _ ih =>
    obtain ⟨live, hlive, harises⟩ := ih
    obtain ⟨hbefore, hstate, hafter⟩ : before ⊆ live ∧ state ∈ live ∧ after ⊆ live := by
      simpa using hlive
    refine ⟨state.awake :: live, ?_, .wake harises hstate⟩
    have hold {some} (hsome : some ⊆ live) : some ⊆ state.awake :: live :=
      fun _ hmem => List.mem_cons_of_mem _ (hsome hmem)
    simp [hold hbefore, hold hafter]

/-- A task in front of a statement is in an activation of some block, and of the very block
that holds the statement unless parallel loops made it drift there. Where no parallel loop
ends a nested block, no task ever drifts. -/
theorem frames_fit_control {p : Program} {settings : Settings} (hframes : settings.frames = .concrete)
    {c : Config ι φ} (harises : c.Arises p settings) {state : State} (hstate : state ∈ c.live)
    {block : NodeId} {index : Nat} (hcontrol : state.control = .stmt block index) :
    (∃ scope, c.machine.Activates scope state.frame ∧
        (scope ≠ block → state.control.Drifts c.machine.outline)) ∧
      (Control.LoopsStay c.machine.outline → c.machine.Activates block state.frame) := by
  obtain ⟨-, -, hlive⟩ := harises.allFit hframes
  obtain ⟨scope, hactivates, hdrifts⟩ := (hlive state hstate).frame
  replace hdrifts := hdrifts block (by rw [hcontrol]; rfl)
  refine ⟨⟨scope, hactivates, hdrifts⟩, fun hstay => ?_⟩
  by_cases hscope : scope = block
  · exact hscope ▸ hactivates
  · exact absurd (hdrifts hscope) (Control.not_drifts hstay)

open Builder

/-- A parallel loop in a nested block, with some statements behind it there, and a
declaration behind the block. -/
def nestedLoop (behind : Nat) : Program := program do
  let counter ← decl "i" .int none
  let start ← int 0
  let bound ← int 1
  let inside ← empty
  let loop ← parallelFor [] "i" start bound [inside]
  let others ← (List.range behind).mapM fun _ => empty
  let block ← Builder.block (loop :: others)
  let declaration ← decl "x" .int none
  return [← function "main" .int [] [counter, block, declaration]]

/-- With a statement behind the loop, the declaration is met in a frame of its block. -/
theorem nestedLoop_fits : ∃ c : Config Int Double, c.Arises (nestedLoop 1) {} ∧ ∃ state ∈ c.live,
      state.control = .stmt 10 2 ∧ Control.LoopsStay c.machine.outline ∧
      c.machine.Activates 10 state.frame := by
  have hrun : (follow? (nestedLoop 1) {} [0, 0, 0, 1, 1, 0, 0] : Option (Config Int Double)).map
      (fun c => (c.live.map (·.control), decide (Control.LoopsStay c.machine.outline))) =
      some ([.stmt 10 2], true) := by decide +kernel
  obtain ⟨c, hfollow, hc⟩ := Option.map_eq_some_iff.mp hrun
  obtain ⟨hcontrol, hstay⟩ := Prod.mk.inj hc
  obtain ⟨state, hlive, hcontrol⟩ := List.map_eq_singleton_iff.mp hcontrol
  have hstay := of_decide_eq_true hstay
  obtain ⟨live, hsubset, harises⟩ := (reachable_follow hfollow).arises
  have hstate : state ∈ live := hsubset (by simp [hlive])
  refine ⟨_, harises, state, hstate, hcontrol, hstay, ?_⟩
  exact (frames_fit_control rfl harises hstate hcontrol).2 hstay

/-- With none, it is met in the frame of the nested block. -/
theorem nestedLoop_drifts : ∃ c : Config Int Double, c.Arises (nestedLoop 0) {} ∧ ∃ state ∈ c.live,
      state.control = .stmt 9 2 ∧ c.machine.Activates 7 state.frame ∧
      ¬c.machine.Activates 9 state.frame := by
  have hrun : (follow? (nestedLoop 0) {} [0, 0, 0] : Option (Config Int Double)).map
      (fun c => c.live.map fun state =>
        (state.control, c.machine.env.frames[state.frame]?.map (·.scope))) =
      some [(.stmt 9 2, some 7), (.stmt 5 0, some 5)] := by decide +kernel
  obtain ⟨c, hfollow, hc⟩ := Option.map_eq_some_iff.mp hrun
  obtain ⟨state, others, hlive, hfirst, -⟩ := List.map_eq_cons_iff.mp hc
  obtain ⟨hcontrol, hscope⟩ := Prod.mk.inj hfirst
  obtain ⟨live, hsubset, harises⟩ := (reachable_follow hfollow).arises
  refine ⟨_, harises, state, hsubset (by simp [hlive]), hcontrol, hscope, fun hactivates => ?_⟩
  rw [Machine.Activates, hscope] at hactivates
  cases hactivates

end CoreC.Config
