import CoreC.Proofs.Kont.ActiveChain
import CoreC.Proofs.Machine.Still

/-! # Transitions

What a step does to the continuations and to the teams, when no two continuations share an address:
the task goes on, under a new continuation or under the parent of its own; it leaves a barrier, or
enters a critical section; it opens a parallel region, or makes the iterations of a loop. All else
is still. Every step that succeeds is such a transition.
-/

namespace CoreC

open Continuation Program Domain KontAllocator List

/-- Whether a node starts a parallel region. -/
def Program.isRegion (p : Program) (node : NodeId) : Bool :=
  match p.construct? node with
  | some (.parallel ..) => true
  | _ => false

variable {node : NodeId}

theorem Program.isRegion_iff {p : Program} :
    p.isRegion node = true ↔ ∃ clauses block, p.construct? node = some (.parallel clauses block) := by
  unfold isRegion
  split
  next clauses block hregion => exact ⟨fun _ => ⟨clauses, block, hregion⟩, fun _ => rfl⟩
  next hother =>
    refine ⟨fun hfalse => absurd hfalse Bool.false_ne_true, ?_⟩
    rintro ⟨clauses, block, hregion⟩
    exact absurd hregion (hother clauses block)

/-- Whether the continuation ends a task that a parallel region made. -/
def Continuation.endsWorker (p : Program) (kont : Continuation) : Bool :=
  match kont.kind with
  | .release (.construct node) .die => p.isRegion node
  | _ => false

variable {kont : Continuation}

theorem Continuation.endsWorker_eq {p : Program}
    (hkind : kont.kind = .release (.construct node) .die) : kont.endsWorker p = p.isRegion node := by
  rw [endsWorker, hkind]

theorem Continuation.IsPlain.of_ret {scalar : Option Scalar}
    (hkind : kont.kind = .ret scalar) : kont.IsPlain := fun _ _ => by simp [hkind]

/-- Whether the next step of a task opens a parallel region. -/
def State.opens (p : Program) (state : State) : Bool :=
  match state.control with
  | .stmt .. => (state.control.stmt? p).any p.isRegion
  | _ => false

namespace Machine

variable {ι φ : Type}

/-- The machine with a continuation at the next address. -/
def withKont (m : Machine ι φ) (kont : Continuation) : Machine ι φ :=
  { m with
    allocator := { m.allocator with next := m.allocator.next + 1 }
    konts := m.konts.write m.allocator.next kont false }

theorem pushKont_of_concrete {m : Machine ι φ} (hpolicy : m.allocator.policy = .concrete)
    (kont : Continuation) (thread : ThreadId) :
    pushKont kont thread m = .ok m.allocator.next (m.withKont kont) := by
  have hallocate : m.allocator.allocate kont thread =
      (m.allocator.next, { m.allocator with next := m.allocator.next + 1 }) := by
    simp [allocate, key?, hpolicy]
  have hmerges : ({ m.allocator with next := m.allocator.next + 1 } : KontAllocator).merges = false := by
    simp [merges, hpolicy]
  simp only [pushKont, hallocate, hmerges, withKont]

/-! ## What a step can do -/

/-- A task is counted for a barrier and starts a block, under a continuation that leaves the
barrier. -/
inductive Starts (state : State) (task : BlockTask) (m : Machine ι φ) : State → Machine ι φ → Prop where
  | start {middle : Machine ι φ} {worker : State}
      (hstill : Still { m with teams := m.teams.enterBarrier task.barrier } middle)
      (hkont : worker.kont = m.allocator.next) (hthread : worker.thread = task.thread) :
      Starts state task m worker
        (middle.withKont ⟨.release task.barrier task.mode, task.resume, state.frame, state.kont⟩)

/-- Tasks in new threads, which the teams take in, start a block one after the other. -/
inductive Makes (state : State) (task : ThreadId → BlockTask)
    (enlist : List State → ThreadId → Teams → Teams) :
    Nat → List State → Machine ι φ → List State → Machine ι φ → Prop where
  | done {started : List State} {m : Machine ι φ} :
      Makes state task enlist 0 started m started.reverse m
  | more {count : Nat} {started states : List State} {worker : State} {m made next m' : Machine ι φ}
      (hstarts : Starts state (task m.teams.newThread.1)
        { m with teams := enlist started m.teams.newThread.1 m.teams.newThread.2 } worker made)
      (hstill : Still made next)
      (hmakes : Makes state task enlist count (worker :: started) next states m') :
      Makes state task enlist (count + 1) started m states m'

/-- The tasks of a parallel region: the thread that met it, and those that it obtained. -/
inductive Opens (state : State) (node : NodeId) (m : Machine ι φ) : List State → Machine ι φ → Prop where
  | team {requested : Option Nat} {spare : Nat} {block : NodeId} {resume : Control}
      {privatized : List (String × Privatization)} {first : State} {states : List State}
      {middle m' : Machine ι φ} {entered : Teams} (hspare : m.teams.spareThreads requested = spare)
      (hentered : entered =
        (m.teams.takeThreads requested).2.enterTeam state.thread ⟨0, spare + 1, 0 < spare⟩)
      (hfirst : Starts state ⟨block, state.thread, .construct node, .wait, resume, privatized⟩
        { m with teams := entered } first middle)
      (hworkers : Makes state (fun thread => ⟨block, thread, .construct node, .die, resume, privatized⟩)
        (fun started thread teams => teams.enterTeam thread ⟨started.length, spare + 1, false⟩) spare
        [first] middle states m') : Opens state node m states m'

/-- The tasks of a parallel loop: one goes on behind it, the others run its iterations. -/
def Loops (goesOn state : State) (node : NodeId) (count : Nat) (m : Machine ι φ) (states : List State)
    (m' : Machine ι φ) : Prop :=
  ∃ body privatized, Makes state (fun thread => ⟨body, thread, .construct node, .die, .invoke, privatized⟩)
    (fun _ thread teams => teams.inherit state.thread thread) count [goesOn] m states m'

/-- What comes of handing something to the continuation of a task. Only a value may fork it. -/
inductive Hands (m : Machine ι φ) (forks : Bool) : State → List State → Machine ι φ → Prop where
  | halts {state : State} {m' : Machine ι φ} (hkont : state.kont = halt) (hstill : Still m m') :
      Hands m forks state [] m'
  | resumes {state : State} {kont : Continuation} {states : List State} {m' : Machine ι φ}
      (hslot : m.konts.slots[state.kont]? = some [kont]) (hplain : kont.IsPlain) (hstill : Still m m')
      (hstates : ∀ next ∈ states, next.kont = kont.parent ∧ next.thread = state.thread)
      (hsome : states ≠ []) (hforks : forks = false → states.length ≤ 1) : Hands m forks state states m'
  | returns {state next : State} {kont : Continuation} {scalar : Option Scalar} {states : List State}
      {m' : Machine ι φ} (hslot : m.konts.slots[state.kont]? = some [kont])
      (hkind : kont.kind = .ret scalar) (hkont : next.kont = kont.parent)
      (hthread : next.thread = state.thread) (hhands : Hands m forks next states m') :
      Hands m forks state states m'
  | ends {state : State} {kont : Continuation} {barrier : Barrier} {left : Teams}
      (hslot : m.konts.slots[state.kont]? = some [kont]) (hkind : kont.kind = .release barrier .die)
      (hleft : left = if kont.endsWorker m.program then (m.teams.leaveBarrier barrier).retire state.thread
        else m.teams.leaveBarrier barrier) : Hands m forks state [] { m with teams := left }
  | joins {state next : State} {kont : Continuation} {barrier : Barrier} {m' : Machine ι φ}
      (hslot : m.konts.slots[state.kont]? = some [kont]) (hkind : kont.kind = .release barrier .wait)
      (hstill : Still { m with teams := (m.teams.leaveBarrier barrier).leaveTeam state.thread } m')
      (hkont : next.kont = kont.parent) (hthread : next.thread = state.thread) :
      Hands m forks state [next] m'
  | unlocks {state next : State} {kont : Continuation} {barrier : Barrier} {m' : Machine ι φ}
      (hslot : m.konts.slots[state.kont]? = some [kont]) (hkind : kont.kind = .release barrier .resume)
      (hstill : Still { m with teams := m.teams.leaveBarrier barrier } m')
      (hkont : next.kont = kont.parent) (hthread : next.thread = state.thread) :
      Hands m forks state [next] m'

variable {forks : Bool}

/-- A task that is not forked goes on as one. -/
theorem exists_singleton {states : List State} (hsome : states ≠ [])
    (hone : forks = false → states.length ≤ 1) (hforks : forks = true → states.length ≤ 1) :
    ∃ next, states = [next] := by
  have hlength : states.length ≤ 1 := by
    cases forks with
    | false => exact hone rfl
    | true => exact hforks rfl
  exact length_eq_one_iff.mp (Nat.le_antisymm hlength (length_pos_iff.mpr hsome))

/-- What becomes of a task in a step. -/
inductive Goes (forks : Bool) (state : State) : Machine ι φ → List State → Machine ι φ → Prop where
  | after {m middle m' : Machine ι φ} {states : List State} (hstill : Still m middle)
      (hgoes : Goes forks state middle states m') : Goes forks state m states m'
  | proceeds {m : Machine ι φ} {next : State} (hkont : next.kont = state.kont)
      (hthread : next.thread = state.thread) : Goes forks state m [next] m
  | pushes {m m' : Machine ι φ} {next : State} {kont : Continuation} (hplain : kont.IsPlain)
      (hparent : kont.parent = state.kont) (hstill : Still (m.withKont kont) m')
      (hkont : next.kont = m.allocator.next) (hthread : next.thread = state.thread) :
      Goes forks state m [next] m'
  | hands {m m' : Machine ι φ} {states : List State} (hhands : Hands m forks state states m') :
      Goes forks state m states m'
  | locks {m m' : Machine ι φ} {worker : State} {block : NodeId} {resume : Control}
      (hfree : m.teams.pending .critical = 0)
      (hstarts : Starts state ⟨block, state.thread, .critical, .resume, resume, []⟩ m worker m') :
      Goes forks state m [worker] m'
  | opens {m m' : Machine ι φ} {states : List State} {node : NodeId}
      (hopens : state.opens m.program = true) (hnode : m.program.isRegion node = true)
      (hteam : Opens state node m states m') : Goes forks state m states m'
  | loops {m m' : Machine ι φ} {states : List State} {node : NodeId} {count : Nat} {goesOn : State}
      (hnode : m.program.isRegion node = false) (hkont : goesOn.kont = state.kont)
      (hthread : goesOn.thread = state.thread) (hloop : Loops goesOn state node count m states m') :
      Goes forks state m states m'

/-- A machine that stores each continuation at an address of its own. -/
structure Ready (o : Outline) (m : Machine ι φ) : Prop where
  runs : Runs o m
  policy : m.allocator.policy = .concrete

/-- A machine that has stored each continuation at an address of its own. -/
structure Chained (o : Outline) (m : Machine ι φ) : Prop extends Ready o m where
  linked : ∃ next, m.konts.Linked next

section Ready

variable {o : Outline} {m m' : Machine ι φ}

theorem Ready.still (hm : Ready o m) (hstill : Still m m') : Ready o m' where
  runs := ⟨hstill.outline.trans hm.runs.1, hstill.filled hm.runs.2⟩
  policy := hstill.allocator ▸ hm.policy

theorem Chained.still (hm : Chained o m) (hstill : Still m m') : Chained o m' :=
  ⟨hm.toReady.still hstill, hstill.konts ▸ hm.linked⟩

theorem Ready.teams (hm : Ready o m) (teams : Teams) : Ready o { m with teams } := ⟨hm.runs, hm.policy⟩

variable {state worker : State} {task : BlockTask}

theorem Ready.starts (hm : Ready o m) (hstarts : Starts state task m worker m') : Ready o m' := by
  cases hstarts with
  | start hstill _ _ =>
    obtain ⟨hruns, hpolicy⟩ := (hm.teams _).still hstill
    exact ⟨hruns, hpolicy⟩

theorem Starts.program (hstarts : Starts state task m worker m') : m'.program = m.program := by
  cases hstarts with
  | start hstill _ _ => exact hstill.program

/-- Of the teams, starting a block changes the barriers only. -/
theorem Starts.teams (hstarts : Starts state task m worker m') :
    m'.teams.slots = m.teams.slots ∧ m'.teams.lastThread = m.teams.lastThread ∧
      worker.thread = task.thread := by
  cases hstarts with
  | @start middle _ hstill _ hthread =>
    have hlast : middle.teams.lastThread = m.teams.lastThread := by rw [hstill.teams]; rfl
    exact ⟨hstill.slots, hlast, hthread⟩

end Ready

variable [DecidableEq ι] [BEq φ] [Domain ι φ] [Productive ι φ] {o : Outline} {m m' : Machine ι φ}
  {state : State} {states : List State}

/-! ## Parallel constructs -/

theorem starts_of_startBlock {task : BlockTask} {worker : State}
    (hrun : startBlock state task m = .ok worker m') (hm : Ready o m) : Starts state task m worker m' := by
  obtain ⟨_, entered, henter, hframing⟩ := bind_eq_ok.mp hrun
  cases henter
  have hentered := hm.teams (m.teams.enterBarrier task.barrier)
  obtain ⟨frame, framed, hframe, hprivatizing⟩ := bind_eq_ok.mp hframing
  obtain ⟨hruns, hframed, -⟩ := (stillRules o).newFrame _ _ _ _ _ hentered.runs hframe
  obtain ⟨_, privatized, hprivatize, hpushing⟩ := bind_eq_ok.mp hprivatizing
  have hsteady : Steady o (fun _ => True) (task.privatized.forM fun entry =>
      privatize state.frame frame entry.1 entry.2 : MachineM ι φ PUnit) :=
    (stillRules o).forEach _ fun entry => (stillRules o).privatize state.frame frame entry.1 entry.2
  obtain ⟨-, hprivatized, -⟩ := hsteady _ _ _ hruns hprivatize
  have hstill := hframed.trans hprivatized
  obtain ⟨address, pushed, hpush, hentering⟩ := bind_eq_ok.mp hpushing
  rw [pushKont_of_concrete (hentered.still hstill).policy] at hpush
  cases hpush
  have hchecking := get_bind_eq_ok.mp hentering
  obtain ⟨control, -, hreturn⟩ := check_bind_eq_ok.mp hchecking
  cases hreturn
  exact .start hstill (congrArg next hstill.allocator) rfl

/-- By induction on the tasks still to be started. -/
theorem makes_of_startAll {γ : Type} {task : ThreadId → BlockTask} {place : List State → ThreadId → Teams → Teams}
    {furnish : γ → State → MachineM ι φ PUnit}
    (hfurnish : ∀ item worker, Steady o (fun _ => True) (furnish item worker)) {items : List γ}
    {started : List State} (hrun : startAll state task place furnish items started m = .ok states m')
    (hm : Ready o m) : Makes state task place items.length started m states m' := by
  induction items generalizing started m with
  | nil =>
    cases hrun
    exact .done
  | cons item rest ih =>
    obtain ⟨_, _, hnew, hplacing⟩ := bind_eq_ok.mp hrun
    cases hnew
    obtain ⟨_, _, hplace, hstarting⟩ := bind_eq_ok.mp hplacing
    cases hplace
    obtain ⟨worker, made, hstart, hfurnishing⟩ := bind_eq_ok.mp hstarting
    have hstarts := starts_of_startBlock hstart (hm.teams _)
    have hmade := (hm.teams _).starts hstarts
    obtain ⟨_, furnished, hone, hothers⟩ := bind_eq_ok.mp hfurnishing
    obtain ⟨-, hstill, -⟩ := hfurnish item worker _ _ _ hmade.runs hone
    exact .more hstarts hstill (ih hothers (hmade.still hstill))

variable {clauses : List Clause}

theorem opens_of_startTeam {node block : NodeId}
    (hrun : startTeam state node clauses block m = .ok states m') (hm : Ready o m) :
    ∃ asked, Still m asked ∧ Opens state node asked states m' := by
  obtain ⟨requested, asked, hask, htaking⟩ := bind_eq_ok.mp hrun
  obtain ⟨-, hasked, -⟩ := (stillRules o).requestedThreads state clauses _ _ _ hm.runs hask
  have hready := hm.still hasked
  obtain ⟨spare, taken, htake, hgetting⟩ := bind_eq_ok.mp htaking
  cases htake
  have hchecking := get_bind_eq_ok.mp hgetting
  obtain ⟨resume, -, hentering⟩ := check_bind_eq_ok.mp hchecking
  obtain ⟨_, entered, henter, hstarting⟩ := bind_eq_ok.mp hentering
  cases henter
  obtain ⟨first, middle, hfirst, hworkers⟩ := bind_eq_ok.mp hstarting
  have hstarts := starts_of_startBlock hfirst (hready.teams _)
  rw [startWorkers_eq _ _ _ _ (show 1 = [first].length from rfl)] at hworkers
  have hmakes := makes_of_startAll (fun _ _ => (stillRules o).done _) hworkers ((hready.teams _).starts hstarts)
  rw [length_replicate] at hmakes
  exact ⟨asked, hasked, .team rfl rfl hstarts hmakes⟩

variable {var : String}

/-- Meeting a parallel loop, a task goes on behind it, waiting for the barrier unless told not to.
Only the first thread of a team makes the iterations. -/
theorem loops_of_startLoop {init bound step body : NodeId} {condOp stepOp : BinOp}
    (hrun : startLoop state node clauses var init condOp bound stepOp step body m = .ok states m')
    (hm : Ready o m) :
    ∃ successor count asked, Control.afterStmt m.outline node = .ok successor ∧
      (m.teams.threadNum state.thread ≠ 0 → count = 0) ∧ Still m asked ∧
      Loops (if .noWait ∈ clauses then state.goto successor
        else (state.goto successor).waitingOn (.construct node)) state node count asked states m' := by
  have hchecking := get_bind_eq_ok.mp hrun
  obtain ⟨successor, hsuccessor, hgetting⟩ := check_bind_eq_ok.mp hchecking
  have htesting := get_bind_eq_ok.mp hgetting
  split at htesting
  next hother =>
    cases htesting
    exact ⟨successor, 0, _, hsuccessor, fun _ => rfl, .refl _, body, [], .done⟩
  next hfirst =>
    generalize hgoesOn : (if Clause.noWait ∈ clauses then state.goto successor
      else (state.goto successor).waitingOn (.construct node)) = goesOn at htesting
    let d := stillRules (ι := ι) (φ := φ) o
    -- Up to the iterations all is still.
    let Reaches (act : MachineM ι φ (List State)) : Prop := ∀ start, Still m start →
      act start = .ok states m' → ∃ count asked, Still m asked ∧
        Loops goesOn state node count asked states m'
    have hbind {β} {Q} {act} {next : β → MachineM ι φ (List State)}
        (hact : Steady o Q act) (hnext : ∀ b, Reaches (next b)) : Reaches (act >>= next) := by
      intro start hstart hrun
      obtain ⟨b, middle, hone, hmore⟩ := bind_eq_ok.mp hrun
      obtain ⟨-, hstill, -⟩ := hact _ _ _ (hm.still hstart).runs hone
      exact hnext b middle (hstart.trans hstill) hmore
    have hcheck {β : Type} (result : Except Fault β) : Steady o (fun _ => True) (check result : MachineM ι φ β) :=
      d.checked fun _ _ => trivial
    obtain ⟨count, asked, hasked, hloops⟩ : ∃ count asked, Still m asked ∧
        Loops goesOn state node count asked states m' := by
      refine hbind (d.resolveName state.frame var) (fun binding => ?_) m (.refl m) htesting
      refine hbind (d.eval state bound) fun _ => hbind (hcheck _) fun boundValue => ?_
      refine hbind (d.eval state step) fun _ => hbind (hcheck _) fun stepValue => ?_
      refine hbind (d.eval state init) fun _ => hbind (hcheck _) fun start => ?_
      refine hbind (Ensures.get stilly) fun seen => hbind (hcheck _) fun passed => ?_
      intro start hstart hrun
      rw [startIterations_eq] at hrun
      refine ⟨_, start, hstart, body, _, makes_of_startAll (fun v _ => ?_) hrun (hm.still hstart)⟩
      exact d.bind (d.declareLocal _ var _) fun address _ => d.writeAs (d.single v) address _
    exact ⟨successor, count, asked, hsuccessor, fun hother => absurd hother hfirst, hasked, hgoesOn ▸ hloops⟩

/-! ## Continuations -/

theorem truths_ne_nil {values : ValueSet ι φ} (hvalues : values.HasMember) {outcomes : List Bool}
    (houtcomes : truths values = .ok outcomes) : outcomes ≠ [] := by
  refine foldlM_ok_induction (P := (· ≠ [])) (.inl hvalues) (fun found v _ out hout => ?_) houtcomes
  obtain ⟨tested, htested, hout⟩ := exists_of_bind_ok hout
  cases hout
  obtain ⟨b, more, rfl⟩ := exists_cons_of_ne_nil (ValueSet.quota_ne_nil.truth Value.yields_ne_nil htested)
  -- Once an outcome was found the list only grows.
  have hgrows (tests found : List Bool) (hfound : found ≠ []) :
      tests.foldl (fun found b => if b ∈ found then found else found ++ [b]) found ≠ [] := by
    induction tests generalizing found with
    | nil => exact hfound
    | cons b more ih =>
      refine ih _ ?_
      dsimp only
      split
      · exact hfound
      · simp
  refine hgrows more _ ?_
  dsimp only
  split
  next hknown => exact ne_nil_of_mem hknown
  next => simp

omit [Productive ι φ] in
theorem convertReturned_machine {scalar : Option Scalar} {value converted : Option (ValueSet ι φ)}
    (hrun : convertReturned scalar value m = .ok converted m') : m = m' := by
  match value, scalar with
  | none, _ | some _, none =>
    cases hrun
    rfl
  | some values, some scalar =>
    have hconvert := get_bind_eq_ok.mp hrun
    obtain ⟨out, -, hreturn⟩ := check_bind_eq_ok.mp hconvert
    cases hreturn
    rfl

/-- A task leaves a barrier, and is given its frame if it goes on. -/
theorem hands_of_release {barrier : Barrier} {mode : ReleaseMode}
    (hm : Runs o m) (hslot : m.konts.slots[state.kont]? = some [kont])
    (hkind : kont.kind = .release barrier mode) {released : List State} {middle : Machine ι φ}
    (hrelease : release state kont barrier mode true m = .ok released middle)
    (hsettle : released.mapM settle middle = .ok states m') : Hands m forks state states m' := by
  have hone {next} (hruns : Runs o middle) (hrun : [next].mapM settle middle = .ok states m') :
      ∃ settled, states = [settled] ∧ settled.Replaces next ∧ Still middle m' := by
    rw [← mapM'_eq_mapM] at hrun
    obtain ⟨settled, _, hsettle, hreturn⟩ := bind_eq_ok.mp hrun
    cases hreturn
    obtain ⟨-, hstill, hsettled⟩ := (stillRules o).settle next _ _ _ hruns hsettle
    exact ⟨settled, rfl, hsettled, hstill⟩
  obtain ⟨_, _, hleave, hmode⟩ := bind_eq_ok.mp hrelease
  cases hleave
  cases mode with
  | die =>
    -- Whether the task is one of a region decides what else the teams are told.
    suffices hends : Triple (· = { m with teams := m.teams.leaveBarrier barrier }) _ fun released middle =>
        released = [] ∧ ∃ left, middle = { m with teams := left } ∧ left =
          if kont.endsWorker m.program then (m.teams.leaveBarrier barrier).retire state.thread
          else m.teams.leaveBarrier barrier by
      obtain ⟨rfl, left, rfl, hleft⟩ := hends _ _ _ rfl hmode
      cases hsettle
      exact .ends hslot hkind hleft
    refine .bind .get fun seen => ?_
    dsimp only
    split
    next _ _ _ _ _ _ hregion =>
      rintro _ _ _ ⟨rfl, rfl⟩ hrun
      obtain ⟨_, _, hretire, hreturn⟩ := bind_eq_ok.mp hrun
      cases hretire
      cases hreturn
      refine ⟨rfl, _, rfl, (if_pos ?_).symm⟩
      cases barrier with
      | construct node => exact (endsWorker_eq hkind).trans (isRegion_iff.mpr ⟨_, _, hregion⟩)
      | critical => cases hregion
    next _ _ hnone =>
      rintro _ _ _ ⟨rfl, rfl⟩ hrun
      cases hrun
      refine ⟨rfl, _, rfl, (if_neg fun hends => ?_).symm⟩
      cases barrier with
      | construct node =>
        rw [endsWorker_eq hkind] at hends
        obtain ⟨clauses, block, hregion⟩ := isRegion_iff.mp hends
        exact hnone clauses block rfl hregion
      | critical => simp [endsWorker, hkind] at hends
  | wait =>
    obtain ⟨_, _, hteam, hreturn⟩ := bind_eq_ok.mp hmode
    cases hteam
    cases hreturn
    obtain ⟨settled, rfl, hsettled, hstill⟩ := hone hm hsettle
    exact .joins hslot hkind hstill hsettled.kont hsettled.thread
  | resume =>
    cases hmode
    obtain ⟨settled, rfl, hsettled, hstill⟩ := hone hm hsettle
    exact .unlocks hslot hkind hstill hsettled.kont hsettled.thread

variable {value : Option (ValueSet ι φ)}

omit [Productive ι φ] in
/-- An invocation that succeeds finds one continuation and hands the value to it. -/
theorem invokeWithin_eq_ok {fuel : Nat} {address next : KontAddress}
    (hlinked : m.konts.Linked next) (haddress : address ≠ halt)
    (hrun : invokeWithin fuel address value state m = .ok states m') :
    ∃ less kont left, fuel = less + 1 ∧ m.konts.slots[address]? = some [kont] ∧
      invokeOne (invokeWithin less) value state kont [] m = .ok (states, left) m' := by
  unfold invokeWithin at hrun
  rw [if_neg haddress] at hrun
  have hread := get_bind_eq_ok.mp hrun
  obtain ⟨konts, hkonts, hinvoke⟩ := check_bind_eq_ok.mp hread
  have hslot := KontTable.slot_of_read hkonts
  obtain ⟨kont, rfl, -, -⟩ := hlinked.slot hslot
  cases fuel with
  | zero => cases hinvoke
  | succ fuel =>
    obtain ⟨⟨one, left⟩, middle, hone, hnone⟩ := bind_eq_ok.mp hinvoke
    cases hnone
    exact ⟨fuel, kont, left, rfl, hslot, by rw [hone, append_nil]⟩

/-- By induction on the number of returns that may still be passed. -/
theorem hands_of_invokeWithin {fuel : Nat} (hvalue : (stillRules o).Hands value) (hm : Chained o m)
    (hrun : invokeWithin fuel state.kont value state m = .ok states m') :
    Hands m value.isSome state states m' := by
  obtain ⟨next, hlinked⟩ := hm.linked
  induction fuel using Nat.strongRecOn generalizing value state with
  | ind fuel ih =>
    by_cases hhalt : state.kont = halt
    · have hfinish : Steady o (· = []) (invokeWithin fuel state.kont value state : MachineM ι φ (List State)) := by
        unfold invokeWithin
        rw [if_pos hhalt]
        cases value with
        | none => exact (stillRules o).pure rfl
        | some values =>
          refine (stillRules o).ite ((stillRules o).bind (.update fun _ => ?_) fun _ _ => ?_) ?_
          · exact ⟨rfl, rfl, rfl, rfl, id⟩
          · exact (stillRules o).pure rfl
          · exact (stillRules o).pure rfl
      obtain ⟨-, hstill, rfl⟩ := hfinish _ _ _ hm.runs hrun
      exact .halts hhalt hstill
    · obtain ⟨less, kont, left, rfl, hslot, hone⟩ := invokeWithin_eq_ok hlinked hhalt hrun
      obtain ⟨kind, control, frame, parent⟩ := kont
      cases kind with
      | ret scalar =>
        obtain ⟨converted, middle, hconvert, hreturn⟩ := bind_eq_ok.mp hone
        obtain ⟨-, -, hoffers, hsome⟩ :=
          (stillRules o).convertReturned scalar hvalue _ _ _ hm.runs hconvert
        cases convertReturned_machine hconvert
        obtain ⟨_, _, hforward, hpure⟩ := bind_eq_ok.mp hreturn
        cases hpure
        let next : State := ⟨control, frame, parent, state.thread, none⟩
        have hforward : invokeWithin less next.kont converted next m = .ok states m' := hforward
        have hhands := ih less (Nat.lt_succ_self less) hoffers hforward
        rw [hsome] at hhands
        have hnext : next.kont = parent ∧ next.thread = state.thread := ⟨rfl, rfl⟩
        exact .returns hslot rfl hnext.1 hnext.2 hhands
      | release barrier mode =>
        obtain ⟨released, middle, hrelease, hreturn⟩ := bind_eq_ok.mp hone
        obtain ⟨_, _, hsettle, hpure⟩ := bind_eq_ok.mp hreturn
        cases hpure
        exact hands_of_release hm.runs hslot rfl hrelease hsettle
      | assign | call | branch | loop =>
        obtain ⟨-, hstill, hstates, hlength⟩ :=
          (stillRules o).taskRules.resume (w := ()) hvalue (by simp)
          (by simp) trivial trivial ((stillRules o).sound _) [] _ _ _ hm.runs hone
        refine .resumes hslot (fun _ _ => by simp) hstill
          (fun next hnext => ⟨(hstates next hnext).1.kont, (hstates next hnext).1.thread⟩) ?_ fun hnone => ?_
        · rintro rfl
          rcases hlength with hlength | ⟨values, outcomes, hvalues, houtcomes, hlength⟩
          · cases hlength
          · refine truths_ne_nil (hvalue values hvalues) houtcomes ?_
            exact length_eq_zero_iff.mp hlength.symm
        · rcases hlength with hlength | ⟨values, _, rfl, -⟩
          · exact Nat.le_of_eq hlength
          · cases hnone

theorem hands_of_invoke (hvalue : (stillRules o).Hands value)
    (hm : Chained o m) (hrun : invoke state.kont value state m = .ok states m') :
    Hands m value.isSome state states m' := by
  have hinvoke := get_bind_eq_ok.mp hrun
  exact hands_of_invokeWithin hvalue hm hinvoke

/-! ## Steps -/

/-- What comes of the operation when it succeeds is a transition. -/
def Transits (o : Outline) (forks : Bool) (state : State) (act : MachineM ι φ (List State)) : Prop :=
  ∀ m states m', Chained o m → act m = .ok states m' → Goes forks state m states m'

theorem transits_of_proceeds {act : MachineM ι φ (List State)}
    (hact : (stillRules o).taskRules.Runs () ((stillRules o).taskRules.Proceeds state) act) : Transits o forks state act := by
  intro m states m' hm hrun
  obtain ⟨-, hstill, next, rfl, hnext, -⟩ := hact _ _ _ hm.runs hrun
  exact .after hstill (.proceeds hnext.kont hnext.thread)

omit [DecidableEq ι] [BEq φ] [Domain ι φ] [Productive ι φ] in
theorem transits_descend (expr : NodeId) {kind : KontKind}
    (hplain : ∀ barrier mode, kind ≠ .release barrier mode) :
    Transits o false state (descend state expr kind : MachineM ι φ (List State)) := by
  intro m states m' hm hrun
  obtain ⟨address, middle, hpush, hreturn⟩ := bind_eq_ok.mp hrun
  rw [pushKont_of_concrete hm.policy] at hpush
  cases hpush
  cases hreturn
  have hkont : IsPlain ⟨kind, state.control, state.frame, state.kont⟩ := hplain
  exact .pushes hkont rfl (.refl _) rfl rfl

theorem transits_callUnder (function : NodeId) (args : List NodeId) : Transits o false state (do
      let kont ← pushKont ⟨.call, state.control, state.frame, state.kont⟩ state.thread
      return [← callFunction state function args kont] : MachineM ι φ (List State)) := by
  intro m states m' hm hrun
  obtain ⟨kont, pushed, hpush, hcalling⟩ := bind_eq_ok.mp hrun
  rw [pushKont_of_concrete hm.policy] at hpush
  cases hpush
  obtain ⟨called, _, hcall, hreturn⟩ := bind_eq_ok.mp hcalling
  cases hreturn
  have hruns : Runs o (m.withKont ⟨.call, state.control, state.frame, state.kont⟩) := hm.runs
  obtain ⟨-, hstill, hcalled⟩ := (stillRules o).callFunction state _ args _ _ _ _ hruns hcall
  have hkont : IsPlain ⟨.call, state.control, state.frame, state.kont⟩ := fun _ _ => by simp
  exact .pushes hkont rfl hstill hcalled.kont hcalled.thread

theorem transits_enterCritical (node block : NodeId) :
    Transits o false state (enterCritical state node block : MachineM ι φ (List State)) := by
  intro m states m' hm hrun
  have htesting := get_bind_eq_ok.mp hrun
  split at htesting
  next hclear =>
    have hchecking := get_bind_eq_ok.mp htesting
    obtain ⟨resume, -, hstarting⟩ := check_bind_eq_ok.mp hchecking
    obtain ⟨worker, _, hstart, hreturn⟩ := bind_eq_ok.mp hstarting
    cases hreturn
    exact .locks (by simpa [Teams.isClear] using hclear) (starts_of_startBlock hstart hm.toReady)
  next =>
    cases htesting
    exact .proceeds rfl rfl

theorem transits_startTeam {stmt block : NodeId}
    (hopens : state.opens o.program = true) (hregion : o.program.isRegion stmt = true) :
    Transits o false state (startTeam state stmt clauses block : MachineM ι φ (List State)) := by
  intro m states m' hm hrun
  obtain ⟨asked, hasked, hteam⟩ := opens_of_startTeam hrun hm.toReady
  have hprogram : asked.program = o.program := congrArg Outline.program (hm.still hasked).runs.1
  exact .after hasked (.opens (hprogram ▸ hopens) (hprogram ▸ hregion) hteam)

theorem transits_startLoop {stmt : NodeId}
    {init bound step body : NodeId} {condOp stepOp : BinOp} (hnode : o.program.isRegion stmt = false) :
    Transits o false state (startLoop state stmt clauses var init condOp bound stepOp step body :
      MachineM ι φ (List State)) := by
  intro m states m' hm hrun
  obtain ⟨successor, count, asked, -, -, hasked, hloops⟩ := loops_of_startLoop hrun hm.toReady
  have hprogram : asked.program = o.program := congrArg Outline.program (hm.still hasked).runs.1
  refine .after hasked (.loops (hprogram ▸ hnode) ?_ ?_ hloops)
  all_goals split <;> rfl

/-- Evaluating an expression is a transition if what comes of its value is. -/
def transitions (o : Outline) (forks : Bool) (state : State) :
    ExpressionRules (stillRules (ι := ι) (φ := φ) o).toDeclarationRules state where
  Takes := Transits o forks state
  throw _ _ _ _ _ hrun := by cases hrun
  bind hact hnext m states m' hm hrun := by
    obtain ⟨b, middle, hfirst, hsecond⟩ := bind_eq_ok.mp hrun
    obtain ⟨-, hstill, hb⟩ := hact _ _ _ hm.runs hfirst
    exact .after hstill (hnext b hb middle states m' (hm.still hstill) hsecond)
  view _ hnext m states m' hm hrun := hnext m hm.runs m states m' hm hrun
  advance := transits_of_proceeds ((stillRules o).taskRules.advance trivial trivial)
  call args _ := transits_of_proceeds ((stillRules o).bind ((stillRules o).callFunction state _ args _)
    fun called hcalled => (stillRules o).pure ⟨called, rfl, hcalled, trivial⟩)

/-- Running a statement is a transition. -/
def statements {stmt : NodeId} (hopens : o.program.isRegion stmt = true → state.opens o.program = true) :
    StatementRules (stillRules (ι := ι) (φ := φ) o).toDeclarationRules state stmt where
  toExpressionRules := transitions o false state
  enter _ := transits_of_proceeds ((stillRules o).taskRules.enterBlock trivial trivial)
  jump label := transits_of_proceeds ((stillRules o).taskRules.jump trivial label)
  assign expr _ _ _ := transits_descend expr (by simp)
  yield expr _ := transits_descend expr (by simp)
  branch _ := transits_descend _ (by simp)
  loop _ := transits_descend _ (by simp)
  ret m states m' hm hrun := .hands (hands_of_invoke (fun _ hnone => by cases hnone) hm hrun)
  callUnder args _ := transits_callUnder _ args
  team hshows := by
    obtain ⟨seen, hseen, hconstruct⟩ := hshows
    rw [program, hseen.1] at hconstruct
    have hregion := isRegion_iff.mpr ⟨_, _, hconstruct⟩
    exact transits_startTeam (hopens hregion) hregion
  parallelLoop hshows := by
    obtain ⟨seen, hseen, hconstruct⟩ := hshows
    rw [program, hseen.1] at hconstruct
    exact transits_startLoop (by rw [isRegion, hconstruct])
  critical _ := transits_enterCritical stmt _

/-- Every step that succeeds is a transition. Only the value of an expression may fork its task. -/
theorem goes_of_step (hm : Chained o m) (hrun : step state m = .ok states m') :
    ∃ forks, (forks = true → ∃ node, state.control = .expr node) ∧ Goes forks state m states m' := by
  unfold step at hrun
  cases hcontrol : state.control with
  | invoke =>
    rw [hcontrol] at hrun
    exact ⟨false, nofun, .hands (hands_of_invoke (fun _ hnone => by cases hnone) hm hrun)⟩
  | expr node =>
    rw [hcontrol] at hrun
    refine ⟨true, fun _ => ⟨node, rfl⟩, ?_⟩
    refine (transitions o true state).stepExpression (fun values hvalues m states m' hm hrun => ?_) node m states
      m' hm hrun
    refine .hands (hands_of_invoke (fun other hother => ?_) hm hrun)
    cases hother
    exact hvalues
  | stmt block index =>
    rw [hcontrol] at hrun
    have hexecute := get_bind_eq_ok.mp hrun
    refine ⟨false, nofun, ?_⟩
    cases hstmt : (Control.stmt block index).stmt? m.program with
    | none =>
      rw [hstmt] at hexecute
      cases hexecute
    | some stmt =>
      rw [hstmt] at hexecute
      have hopens (hregion : o.program.isRegion stmt = true) : state.opens o.program = true := by
        rw [program, hm.runs.1] at hstmt
        simp [State.opens, hcontrol, hstmt, hregion]
      exact (statements hopens).execute m states m' hm hexecute

end Machine

end CoreC
