import CoreC.Proofs.Machine.Successors
import CoreC.Proofs.Machine.FrameScope
import CoreC.Proofs.Task.Schedule

/-! # Deterministic runs

Where nothing is shared and nothing undetermined is called, a program that declares each
variable once runs deterministically: its machine stays sharp from the first global on, so
memory holds one value in each cell, evaluation gives one value, and a step leads to at most
one task of the thread that takes it.
-/

namespace CoreC

open Machine Builder List Option Secures Program Construct

/-- Nothing is merged: a write replaces, and no two frames, blocks or continuations share a
place. -/
structure Settings.Unshared (settings : Settings) : Prop where
  update : settings.update = .strong
  frames : settings.frames = .concrete
  heap : settings.heap = .concrete
  konts : settings.konts = .concrete

namespace Machine

variable {o : Outline}

/-! ## Globals -/

section Globals

variable (hp : o.program.Determined) {setup : State} {item : NodeId}

theorem determines_declareGlobal_none {P : Machine Int Double → Prop}
    (hitem : o.program.globalObject? item = none) :
    Determines o P (declareGlobal setup item) fun _ => P := by
  refine .read fun seen hseen _ => ?_
  rw [program, hseen.outline]
  split
  next name type init hconstruct =>
    rw [if_pos (globalObject?_eq_none hitem hconstruct)]
    exact .pure fun _ _ hm => hm
  next => exact .pure fun _ _ hm => hm

include hp

/-- The frame of the globals binds none of those that are still to come; what an initializer
mentions is none of them. -/
theorem determines_declareGlobal_some {name : String} {init : Option NodeId}
    (hitem : o.program.globalObject? item = some (name, init)) {names : List String}
    (hname : name ∉ names)
    (hinit : ∀ node ∈ init, ∀ other, o.program.Mentions node other → other ∉ names) :
    Determines o (Limited setup.frame fun other => other ∉ name :: names) (declareGlobal setup item)
      fun _ => Limited setup.frame fun other => other ∉ names := by
  obtain ⟨type, hconstruct, htype⟩ := globalObject?_eq_some hitem
  let d := certainRules hp setup.frame (· ∉ names)
  refine .read fun seen hseen _ => ?_
  rw [program, hseen.outline, hconstruct]
  dsimp only
  rw [if_neg htype]
  refine .bind (determines_declareLocal (by simp) hname (fun _ => not_mem_of_not_mem_cons) type) fun address => ?_
  refine .bind (d.onStore (Store.sharpens_zeroFill _) fun _ _ _ _ => trivial) fun _ => ?_
  cases init with
  | none => exact .pure fun _ _ hm => hm.2
  | some node =>
    refine weaken (from_pre (d.fillObject setup address type (hinit node rfl)) ?_) fun _ _ hm => hm.2
    exact fun _ _ hm => hm.2

theorem determines_declareGlobals {items : List NodeId}
    (hitems : (items.filterMap o.program.globalObject?).Pairwise o.program.Follows) :
    Determines o
      (Limited setup.frame fun other => other ∉ (items.filterMap o.program.globalObject?).map Prod.fst)
      (items.forM (declareGlobal setup)) fun _ _ => True := by
  induction items with
  | nil => exact .pure fun _ _ _ => trivial
  | cons item rest ih =>
    cases hitem : o.program.globalObject? item with
    | none =>
      rw [filterMap_cons_none hitem] at hitems ⊢
      exact .bind (determines_declareGlobal_none hitem) fun _ => ih hitems
    | some entry =>
      rw [filterMap_cons_some hitem] at hitems ⊢
      obtain ⟨hfirst, hrest⟩ := pairwise_cons.mp hitems
      refine .bind (determines_declareGlobal_some hp hitem ?_ ?_) fun _ => ih hrest
      · intro hmem
        obtain ⟨later, hlater, hsame⟩ := mem_map.mp hmem
        exact (hfirst later hlater).1 hsame
      · intro node hnode other hmentions hmem
        obtain ⟨later, hlater, rfl⟩ := mem_map.mp hmem
        exact (hfirst later hlater).2 node hnode hmentions

end Globals

/-! ## Start -/

/-- The frame of `main` binds its parameters. -/
theorem determines_declareParams {frame : FrameId} {params : List Member} {bound : List String}
    (hnames : (params.map (·.name) ++ bound).Nodup) :
    Determines o (Limited frame (· ∈ bound))
      (params.forM fun param => do let _ ← declareLocal frame param.name param.type) fun _ _ => True := by
  induction params generalizing bound with
  | nil => exact .pure fun _ _ _ => trivial
  | cons param rest ih =>
    obtain ⟨hname, hrest⟩ := nodup_next hnames
    refine .bind (.bind (determines_declare hname param.type) fun _ => ?_) fun _ => ih hrest
    exact .pure fun _ _ hm => hm

theorem determines_start (hp : o.program.Determined) (honce : o.program.DeclaresOnce) :
    Determines o (fun _ => True) (start : MachineM Int Double State) fun first m => m.Hosts first := by
  let R := hosting hp
  refine readNow fun seen hseen _ => ?_
  dsimp only
  rw [program, hseen.outline]
  refine R.bind (determines_newFrame _ _ nofun) fun m global _ hglobal => ?_
  refine R.bind (P := fun _ _ => True) ?_ fun m _ _ _ => R.bind (P := fun _ _ => True) ?_ fun m _ _ _ => ?_
  · refine from_pre (determines_declareGlobals hp honce.globals) fun _ _ hsame => ?_
    exact hsame ▸ hglobal.2.2 _
  · refine Determines.onEnv fun m result env hm _ hset => ?_
    obtain ⟨env, hset, heq⟩ := exists_of_map_ok hset
    cases heq
    have hsame := Environment.sameShape_setGlobal hset
    unfold Environment.setGlobal at hset
    split at hset
    · cases hset
    · obtain ⟨frame, -, rfl⟩ := exists_of_map_ok hset
      obtain ⟨hsharp, hextends⟩ := hm.withEnv (hsame.laid hm.laid) (hsame.ranked hm.ranked) (Nat.le_refl _)
        fun frame names hnames => ⟨names, Subset.refl _, hnames⟩
      exact ⟨hsharp, hextends, trivial⟩
  refine Determines.read fun _ _ _ => ?_
  split
  · exact Determines.throw _
  next main hmain =>
    split
    next name returns params body hconstruct =>
      refine R.bind (determines_newFrame m body nofun) fun m frame _ hframe => ?_
      have hnames : ((funcDef name returns params body).boundTogether ++ []).Nodup := by
        simpa using honce.nodup hconstruct
      have hparams : R.Runs m (fun _ _ => True) (params.forM fun param => do
          let _ ← declareLocal frame param.name param.type) :=
        from_pre (determines_declareParams hnames) fun _ _ hsame => hsame ▸ hframe.2.2 _
      refine R.carry HasFrame.later hframe.1 hparams fun m _ hframe _ => ?_
      refine Determines.read fun _ _ _ => .check fun control _ => .pure fun _ _ hsame => ?_
      subst hsame
      exact ⟨hframe, Nat.zero_le _⟩
    next => exact Determines.throw _

/-! ## Runs -/

theorem sharp_new {p : Program} {settings : Settings} (hsettings : settings.Unshared)
    {m : Machine Int Double} (hnew : new p settings = .ok m) :
    m.outline.program = p ∧ Sharp m.outline m := by
  obtain ⟨outline, houtline, hreturn⟩ := exists_of_bind_ok hnew
  cases hreturn
  refine ⟨(Outline.tree_ofProgram houtline).2.1, rfl, ?_, hsettings.frames, ⟨hsettings.frames, ?_, ?_⟩, ?_,
    hsettings.konts, ?_, ?_⟩
  · rw [hsettings.update, hsettings.heap]
    exact Store.sharp_new _
  · simp [Environment.new]
  · simp [Environment.new, Environment.jumpFrame?]
  · simp [Environment.new, Environment.Ranked]
  · simp [Store.new, Store.isAllocated]
  · simp [KontTable.empty]

/-- Dropping continuations leaves the others alone at their addresses. -/
theorem Sharp.sweep {m : Machine Int Double} (hm : Sharp o m) (s : Schedule) : Sharp o (m.sweep s) := by
  refine ⟨hm.outline, hm.store, hm.unshared, hm.laid, hm.ranked, hm.kontPolicy, hm.bound,
    fun {address konts} hslot => ?_⟩
  unfold Machine.sweep KontTable.sweep at hslot
  rw [Std.TreeMap.getElem?_filter', filter_eq_some_iff] at hslot
  exact hm.konts hslot.1

end Machine

namespace Config

variable {ι φ : Type} [DecidableEq ι] [BEq φ] [Domain ι φ]

/-- The configurations that a run may come by: a start or a step that fails leaves its machine
behind, any task that ever came about may be stepped next, and continuations may be swept. -/
inductive Occurs (p : Program) (settings : Settings) : Config ι φ → Prop where
  | start {m m' : Machine ι φ} {first : State} (hnew : new p settings = .ok m)
      (hstart : start m = .ok first m') : Occurs p settings ⟨m', [first]⟩
  | stop {m m' : Machine ι φ} {fault : Fault} (hnew : new p settings = .ok m)
      (hstart : start m = .error fault m') : Occurs p settings ⟨m', []⟩
  | step {m m' : Machine ι φ} {live states : List State} {state : State}
      (hoccurs : Occurs p settings ⟨m, live⟩) (hstate : state ∈ live)
      (hstep : step state m = .ok states m') : Occurs p settings ⟨m', states ++ live⟩
  | fail {m m' : Machine ι φ} {live : List State} {state : State} {fault : Fault}
      (hoccurs : Occurs p settings ⟨m, live⟩) (hstate : state ∈ live)
      (hstep : step state m = .error fault m') : Occurs p settings ⟨m', live⟩
  | wake {m : Machine ι φ} {live : List State} {state : State}
      (hoccurs : Occurs p settings ⟨m, live⟩) (hstate : state ∈ live) :
      Occurs p settings ⟨m, state.awake :: live⟩
  | sweep {m : Machine ι φ} {live : List State} (hoccurs : Occurs p settings ⟨m, live⟩)
      (s : Schedule) : Occurs p settings ⟨m.sweep s, live⟩

theorem Arises.occurs {p : Program} {settings : Settings} {c : Config ι φ}
    (harises : c.Arises p settings) : c.Occurs p settings := by
  induction harises with
  | start hnew hstart => exact .start hnew hstart
  | step _ hstate hstep ih => exact ih.step hstate hstep
  | fail _ hstate hstep ih => exact ih.fail hstate hstep
  | wake _ hstate ih => exact ih.wake hstate

/-- The task is one of those that came about, or one of them no longer waiting. -/
def Comes (live : List State) (state : State) : Prop :=
  ∃ origin ∈ live, state = origin ∨ state = origin.awake

theorem Comes.awake {live : List State} (state : State) (hstate : Comes live state) :
    Comes live state.awake := by
  obtain ⟨origin, horigin, rfl | rfl⟩ := hstate
  · exact ⟨state, horigin, .inr rfl⟩
  · exact ⟨origin, horigin, .inr rfl⟩

variable {p : Program} {settings : Settings}

/-- What a run steps through occurs. -/
theorem Occurs.explore {m : Machine ι φ} {live : List State} (hoccurs : Occurs p settings ⟨m, live⟩)
    {s : Schedule} (hs : s.AllPending (Comes live)) (remaining : Nat) :
    ∃ live', Occurs p settings ⟨(m.explore remaining s).2.1, live'⟩ := by
  induction remaining generalizing m live s with
  | zero =>
    refine ⟨live, ?_⟩
    unfold Machine.explore
    split
    · exact hoccurs
    · exact hoccurs
    · exact hoccurs
  | succ remaining ih =>
    unfold Machine.explore
    split
    · exact ⟨live, hoccurs⟩
    · exact ⟨live, hoccurs⟩
    next state s' hnext =>
      obtain ⟨⟨origin, horigin, hstate⟩, hs'⟩ := hs.next Comes.awake hnext
      have hwoken : Occurs p settings ⟨m, origin.awake :: live⟩ := hoccurs.wake horigin
      have hmem : state ∈ origin.awake :: live := by
        rcases hstate with rfl | rfl
        · exact mem_cons_of_mem _ horigin
        · exact mem_cons_self
      dsimp only
      split
      next fault m' hstep => exact ⟨_, hwoken.fail hmem hstep⟩
      next states m' hstep =>
        have hstepped := hwoken.step hmem hstep
        have hmore : (s'.addAll m'.teams m'.store.generation states).AllPending
            (Comes (states ++ origin.awake :: live)) := by
          refine Schedule.AllPending.addAll Comes.awake (fun other hother => ?_) fun other hother => ?_
          · obtain ⟨source, hsource, heq⟩ := hs' other hother
            exact ⟨source, mem_append_right _ (mem_cons_of_mem _ hsource), heq⟩
          · exact ⟨other, mem_append_left _ hother, .inl rfl⟩
        split
        · exact ih (hstepped.sweep _) hmore
        · exact ih hstepped hmore

/-- So does the machine that a run ends in. -/
theorem occurs_runAll {m : Machine ι φ} (hnew : new p settings = .ok m) :
    ∃ live, Occurs p settings ⟨m.runAll.2.1, live⟩ := by
  unfold runAll
  dsimp only
  split
  next fault m' hstart => exact ⟨[], .stop hnew hstart⟩
  next first m' hstart =>
    refine (Occurs.start hnew hstart).explore (Schedule.AllPending.add Comes.awake ?_ ?_) _
    · intro state hstate
      cases hstate
    · exact ⟨first, mem_singleton_self first, .inl rfl⟩

/-- From the start on the machine is sharp and has the frames and threads of all tasks. -/
theorem Occurs.sharp (hsettings : settings.Unshared) (hp : p.Determined) (honce : p.DeclaresOnce)
    {c : Config Int Double} (hoccurs : c.Occurs p settings) :
    c.machine.outline.program = p ∧ Sharp c.machine.outline c.machine ∧
      ∀ state ∈ c.live, c.machine.Hosts state := by
  induction hoccurs with
  | @start m m' first hnew hstart =>
    obtain ⟨hprogram, hm⟩ := sharp_new hsettings hnew
    obtain ⟨hm', -, hfirst⟩ := determines_start (hprogram.symm ▸ hp) (hprogram.symm ▸ honce) m hm trivial
    rw [leaves_of_ok hstart] at hm'
    rw [hm'.outline]
    exact ⟨hprogram, hm', by simpa using hfirst _ _ hstart⟩
  | @stop m m' fault hnew hstart =>
    obtain ⟨hprogram, hm⟩ := sharp_new hsettings hnew
    obtain ⟨hm', -, -⟩ := determines_start (hprogram.symm ▸ hp) (hprogram.symm ▸ honce) m hm trivial
    rw [leaves_of_error hstart] at hm'
    rw [hm'.outline]
    exact ⟨hprogram, hm', by simp⟩
  | @step m m' live states state _ hstate hstep ih =>
    obtain ⟨hprogram, hm, hlive⟩ := ih
    obtain ⟨hm', hextends, hstates⟩ := determines_step (hprogram.symm ▸ hp)
      (hprogram.symm ▸ honce) state m hm (hlive state hstate)
    rw [leaves_of_ok hstep] at hm' hextends
    rw [hm'.outline]
    refine ⟨hprogram, hm', forall_mem_append.mpr ⟨(hstates _ _ hstep).hosts, ?_⟩⟩
    exact fun other hother => (hlive other hother).later hextends
  | @fail m m' live state fault _ hstate hstep ih =>
    obtain ⟨hprogram, hm, hlive⟩ := ih
    obtain ⟨hm', hextends, -⟩ := determines_step (hprogram.symm ▸ hp)
      (hprogram.symm ▸ honce) state m hm (hlive state hstate)
    rw [leaves_of_error hstep] at hm' hextends
    rw [hm'.outline]
    exact ⟨hprogram, hm', fun other hother => (hlive other hother).later hextends⟩
  | @wake m live state _ hstate ih =>
    obtain ⟨hprogram, hm, hlive⟩ := ih
    have hawake := hlive state hstate
    exact ⟨hprogram, hm, forall_mem_cons.mpr ⟨⟨hawake.frame, hawake.thread⟩, hlive⟩⟩
  | @sweep m live _ s ih =>
    obtain ⟨hprogram, hm, hlive⟩ := ih
    exact ⟨hprogram, hm.sweep s, fun state hstate => ⟨(hlive state hstate).frame, (hlive state hstate).thread⟩⟩

/-- A program that calls nothing undetermined and declares each variable once is run
deterministically where nothing is shared: whatever configuration a run comes by, no object is
a summary, every cell holds one value, evaluation gives one value, and a step leads to at most
one task of its thread. -/
theorem deterministic_of_declaresOnce (hsettings : settings.Unshared) (hp : p.Determined)
    (honce : p.DeclaresOnce) {c : Config Int Double} (hoccurs : c.Occurs p settings) :
    (∀ base, c.machine.store.isSummary base = false) ∧
      (∀ (key : Nat) (cell : Cell Int Double), c.machine.store.cells[key]? = some cell →
        ∃ v, cell.contents.items = [v]) ∧
      (∀ state node values m, eval state node c.machine = .ok values m → ∃ v, values.items = [v]) ∧
      ∀ state ∈ c.live, ∀ states m, step state c.machine = .ok states m →
        (states.filter (·.thread = state.thread)).length ≤ 1 := by
  obtain ⟨hprogram, hm, hlive⟩ := hoccurs.sharp hsettings hp honce
  refine ⟨hm.store.isSummary, fun key cell hcell => ?_, fun state node values m heval => ?_,
    fun state hstate states m hstep => ?_⟩
  · exact length_eq_one_iff.mp (hm.store.cells hcell)
  · have hdetermined := hprogram.symm ▸ hp
    obtain ⟨-, -, hvalues⟩ := Determines.freely (P := fun _ => True) hdetermined
      ((certainRules hdetermined 0 fun _ => True).eval state fun _ _ => trivial) _ hm trivial
    exact length_eq_one_iff.mp (hvalues values m heval)
  · obtain ⟨-, -, hstates⟩ := determines_step (hprogram.symm ▸ hp) (hprogram.symm ▸ honce)
      state _ hm (hlive state hstate)
    exact (hstates states m hstep).one

/-- A pointer to an earlier global among the globals, and a loop that has a private copy of
the pointer in each iteration. -/
def sharedCounter : Program := program do
  let shared ← decl "g" .int none
  let target ← unary .addrOf (← id "g")
  let pointer ← decl "q" CType.int.pointerTo (some target)
  let later ← decl "h" .int (some (← int 7))
  let counter ← decl "i" .int none
  let assigned ← assignTo "g" (← id "i")
  let loop ← parallelFor [.privateVars ["q"]] "i" (← int 0) (← int 2) [assigned]
  let result ← ret (some (← id "g"))
  return [shared, pointer, later, ← function "main" .int [] [counter, loop, result]]

theorem sharedCounter_declaresOnce : sharedCounter.DeclaresOnce where
  together := by decide +kernel
  globals := by
    have hglobals : sharedCounter.globals = [("g", none), ("q", some 2), ("h", some 4)] := by rfl
    have hname : ¬sharedCounter.Mentions 1 "h" := by
      have hconstruct : sharedCounter.construct? 1 = some (.id "g") := by rfl
      rw [mentions_iff]
      simp [hconstruct, children]
    have htarget : ¬sharedCounter.Mentions 2 "h" := by
      have hconstruct : sharedCounter.construct? 2 = some (.unary .addrOf 1) := by rfl
      rw [mentions_iff]
      simp [hconstruct, children, hname]
    simp [hglobals, Program.Follows, htarget]

/-- While `main` waits for the loop, both iterations are there, each with its own pointer. -/
theorem sharedCounter_deterministic : ∃ c : Config Int Double, c.Occurs sharedCounter {} ∧
      (∀ thread ∈ [0, 1, 2], ∃ state ∈ c.live, state.thread = thread) ∧
      (∀ base, c.machine.store.isSummary base = false) ∧
      (∀ (key : Nat) (cell : Cell Int Double), c.machine.store.cells[key]? = some cell →
        ∃ v, cell.contents.items = [v]) ∧
      (∀ state node values m, eval state node c.machine = .ok values m → ∃ v, values.items = [v]) ∧
      ∀ state ∈ c.live, ∀ states m, step state c.machine = .ok states m →
        (states.filter (·.thread = state.thread)).length ≤ 1 := by
  have hrun : (follow? sharedCounter {} [0, 0] : Option (Config Int Double)).map
      (fun c => c.live.map (·.thread)) = some [0, 1, 2] := by decide +kernel
  obtain ⟨c, hfollow, hthreads⟩ := map_eq_some_iff.mp hrun
  obtain ⟨live, hsubset, harises⟩ := (reachable_follow hfollow).arises
  refine ⟨_, harises.occurs, fun thread hthread => ?_, ?_⟩
  · rw [← hthreads] at hthread
    obtain ⟨state, hstate, rfl⟩ := mem_map.mp hthread
    exact ⟨state, hsubset hstate, rfl⟩
  · exact deterministic_of_declaresOnce ⟨rfl, rfl, rfl, rfl⟩ (by decide +kernel)
      sharedCounter_declaresOnce harises.occurs

/-- A global that is declared a second time, and assigned twice by `main`. -/
def declaredTwice : Program := program do
  let first ← decl "g" .int none
  let second ← decl "g" .int none
  let one ← assignTo "g" (← int 1)
  let two ← assignTo "g" (← int 2)
  let result ← ret (some (← id "g"))
  return [first, second, ← function "main" .int [] [one, two, result]]

theorem declaredTwice_merges : declaredTwice.Determined ∧ ({} : Settings).Unshared ∧
    ∃ c : Config Int Double, c.Occurs declaredTwice {} ∧
      c.machine.store.isSummary (.frame 0 "g") = true ∧
      ∃ (key : Nat) (cell : Cell Int Double), c.machine.store.cells[key]? = some cell ∧
        cell.contents.items.length = 3 := by
  have hrun : (new declaredTwice {} : Except Fault (Machine Int Double)).toOption.map
      (fun m => (m.runAll.2.1.store.isSummary (.frame 0 "g"),
        m.runAll.2.1.store.cells[1]?.map (·.contents.items.length))) = some (true, some 3) := by
    decide +kernel
  refine ⟨by decide +kernel, ⟨rfl, rfl, rfl, rfl⟩, ?_⟩
  cases hnew : (new declaredTwice {} : Except Fault (Machine Int Double)) with
  | error fault =>
    rw [hnew] at hrun
    cases hrun
  | ok m =>
    rw [hnew] at hrun
    obtain ⟨hsummary, hcells⟩ := Prod.mk.inj (some.inj hrun)
    obtain ⟨cell, hcell, hlength⟩ := map_eq_some_iff.mp hcells
    obtain ⟨live, hoccurs⟩ := occurs_runAll hnew
    exact ⟨_, hoccurs, hsummary, 1, cell, hcell, hlength⟩

end Config

/-! ## Fixed choices

A condition of several truths forks a task, and the alternatives go on over one memory. So a run
that leaves a choice open may miss a fault that it meets once the choice is fixed.
-/

namespace Program

/-- The node calls the function whose result is not determined. -/
def isChoice (p : Program) : Construct → Bool
  | .call callee [] => p.construct? callee = some (.id "__VERIFIER_nondet_int")
  | _ => false

/-- The program with a number in the place of every choice. -/
def resolve (p : Program) (pick : NodeId → Fin 3) : Program :=
  { p with nodes := p.nodes.mapIdx fun id node =>
      if p.isChoice node.construct then { node with construct := .literal (.int (pick id).val .int) }
      else node }

end Program

/-- An array of one element is indexed after an undetermined condition has decided which of two
numbers the index is. -/
def chosenIndex (yes no : Int) : Program := program do
  let i ← decl "i" .int none
  let a ← decl "a" (CType.int.arrayOf 1) none
  let cond ← call "__VERIFIER_nondet_int" []
  let yes ← block [← assignTo "i" (← int yes)]
  let no ← block [← assignTo "i" (← int no)]
  let branch ← ifElse cond yes (some no)
  let access ← index (← id "a") (← id "i")
  return [← function "main" .int [] [i, a, branch, access]]

/-- The alternative that stays in the array sets the index that the other one uses. -/
theorem chosenIndex_missed : (run ((chosenIndex 0 5).resolve fun _ => 0) {}).memorySafe = false ∧
    (run (chosenIndex 0 5) {}).fault = none ∧ (run (chosenIndex 0 5) {}).memorySafe = true := by
  decide +kernel

end CoreC
