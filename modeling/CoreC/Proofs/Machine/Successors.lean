import CoreC.Proofs.Kont.ActiveChain
import CoreC.Proofs.Machine.Certain

/-! # One successor

In a sharp machine a step leads to at most one task of the thread that takes it: a condition
has one outcome, an address holds one continuation, and whatever else a parallel construct
starts runs in threads of its own. Tasks are in frames that exist, so what a new frame is
made inside of comes before it.
-/

namespace CoreC.Machine

open Secures Environment KontAllocator List

variable {α : Type} {o : Outline} {m : Machine Int Double} {frame : FrameId} {state : State}

/-! ## Frames -/

/-- The number of a frame that exists. -/
def HasFrame (m : Machine Int Double) (frame : FrameId) : Prop := frame < m.env.frames.size

/-- The frame and the thread of the task are there. -/
structure Hosts (m : Machine Int Double) (state : State) : Prop where
  frame : m.HasFrame state.frame
  thread : state.thread ≤ m.teams.lastThread

/-- The tasks are there, and at most one of them is of the thread. -/
structure Succeeds (thread : ThreadId) (states : List State) (m : Machine Int Double) : Prop where
  one : (states.filter (·.thread = thread)).length ≤ 1
  hosts : ∀ next ∈ states, m.Hosts next

section Later

variable {m' : Machine Int Double} (hextends : Extends m m')

include hextends

theorem HasFrame.later (hframe : m.HasFrame frame) : m'.HasFrame frame :=
  Nat.lt_of_lt_of_le hframe hextends.frames

theorem Hosts.later (hstate : m.Hosts state) : m'.Hosts state :=
  ⟨hstate.frame.later hextends, Nat.le_trans hstate.thread hextends.threads⟩

end Later

/-- A new frame comes after all others and binds nothing. -/
theorem determines_newFrame (m : Machine Int Double) (scope : NodeId) {parent : Option FrameId}
    (hparent : ∀ id ∈ parent, m.HasFrame id) :
    Determines o (· = m) (newFrame scope parent) fun frame m' =>
      m'.HasFrame frame ∧ (∀ id ∈ parent, id < frame) ∧ ∀ allowed, Limited frame allowed m' := by
  rintro _ hm rfl
  obtain ⟨hlaid, hincludes⟩ := laid_grown hm.laid scope parent
  have hrun := newFrame_run hm.laid.policy scope parent
  obtain ⟨hsharp, hextends⟩ := hm.includes hincludes hlaid (Ranked.grown hm.ranked hparent)
  rw [leaves_of_ok hrun, hrun]
  refine ⟨hsharp, hextends, fun frame m' hout => ?_⟩
  cases hout
  refine ⟨?_, hparent, fun allowed names hnames name hname => ?_⟩
  · unfold HasFrame
    rw [size_grown hm.laid.below]
    exact Nat.lt_succ_self _
  · simp only [Binds, grown, Std.TreeMap.getElem?_insert_self, Option.map_some, map_nil,
      Option.some.injEq] at hnames
    subst hnames
    cases hname

theorem determines_frameFor (m : Machine Int Double) (start : FrameId) (block : NodeId) (keep : Bool) :
    Determines o (· = m) (frameFor start block keep) fun frame m' => m'.HasFrame frame := by
  rintro _ hm rfl
  rcases frameFor_cases hm.outline hm.laid start block keep with
    ⟨fault, hrun⟩ | ⟨frame, m', hrun, hlaid, hincludes, hranked, anchor, depth, hmirrors⟩
  · rw [leaves_of_error hrun, hrun]
    exact ⟨hm, extending.refl _, fun _ _ hout => (nomatch hout)⟩
  · obtain ⟨hsharp, hextends⟩ := hm.includes hincludes hlaid (hranked hm.ranked)
    rw [leaves_of_ok hrun, hrun]
    refine ⟨hsharp, hextends, fun _ _ hout => ?_⟩
    cases hout
    obtain ⟨found, hfound⟩ := hmirrors.exists_frame
    exact hlaid.below _ (Std.TreeMap.mem_iff_isSome_getElem?.mpr (hfound ▸ rfl))

/-- A continuation gets an address that it shares with no other. -/
theorem determines_pushKont {kont : Continuation} (hframe : m.HasFrame kont.frame)
    (hsound : kont.kind.Sound (· = false) fun _ => True) (thread : ThreadId) :
    Determines o (· = m) (pushKont kont thread) fun _ m' =>
      ∃ allocator konts, m' = { m with allocator, konts } := by
  rintro m hm rfl
  have hpolicy : (m.allocator.allocate kont thread).2.policy = .concrete := by
    simp [allocate, key?, hm.kontPolicy]
  have hunmerged : (m.allocator.allocate kont thread).2.merges = false := by
    simp [merges, hpolicy]
  refine ⟨⟨hm.outline, hm.store, hm.unshared, hm.laid, hm.ranked, hpolicy, hm.bound,
    fun {address konts} hslot => ?_⟩, ⟨Nat.le_refl _, Nat.le_refl _⟩, fun _ _ hrun => ?_⟩
  · change (m.konts.write (m.allocator.allocate kont thread).1 kont
      (m.allocator.allocate kont thread).2.merges).slots[address]? = some konts at hslot
    rw [hunmerged, KontTable.getElem?_write] at hslot
    split at hslot
    · cases hslot
      exact ⟨kont, rfl, hframe, hsound⟩
    · exact hm.konts hslot
  · cases hrun
    exact ⟨_, _, rfl⟩

/-! ## Values -/

theorem length_truths {values : ValueSet Int Double} (hvalues : values.Single) {outcomes : List Bool}
    (houtcomes : truths values = .ok outcomes) : outcomes.length = 1 := by
  obtain ⟨v, hv⟩ := length_eq_one_iff.mp hvalues
  unfold truths at houtcomes
  rw [hv] at houtcomes
  obtain ⟨found, hfound, hdone⟩ := exists_of_bind_ok houtcomes
  cases hdone
  obtain ⟨tests, htests, hfound⟩ := exists_of_bind_ok hfound
  cases hfound
  obtain ⟨b, rfl⟩ := length_eq_one_iff.mp (ValueSet.quota_one.truth Exact.yields_one htests)
  rfl

section Steps

variable (hp : o.program.Determined)

/-- Where all names are allowed nothing is asked of them. -/
theorem Determines.freely {P : Machine Int Double → Prop} {act : MachineM Int Double α} {fact : α → Prop}
    (hact : (certainRules hp 0 fun _ => True).Obeys fact act) : Determines o P act fun a _ => fact a :=
  weaken (from_pre hact fun _ _ _ _ _ _ _ => trivial) fun _ _ h => h.1

/-- Tasks move to frames that are there. -/
def hosting : TaskRules Int Double where
  rules := certainRules hp 0 fun _ => True
  World := Machine Int Double
  Later := Extends
  Runs m Q act := Determines o (· = m) act fun a m' => Q m' a
  Stands := Hosts
  Ready m frame _ thread _ := m.HasFrame frame ∧ thread ≤ m.teams.lastThread
  Found m _ := m.HasFrame
  later := extending
  pure ha := .pure fun _ _ hm => hm ▸ ha
  throw _ := .throw _
  bind := bind_at extending
  view _ hnext := .read fun m hm _ => hnext m hm
  inner := .freely hp
  lasts := Hosts.later
  remains hlater hready := ⟨hready.1.later hlater, Nat.le_trans hready.2 hlater.threads⟩
  stands hready _ _ := ⟨hready.1, hready.2⟩
  found hready hframe := ⟨hframe, hready.2⟩
  frameFor := determines_frameFor

/-! ## Frames of their own -/

variable {bound : List String} {name : String}

/-- A variable is declared in a frame that binds other names. -/
theorem determines_declare (hname : name ∉ bound) (type : CType) :
    Determines o (Limited frame (· ∈ bound)) (declareLocal frame name type) fun _ =>
      Limited frame (· ∈ name :: bound) :=
  determines_declareLocal hname mem_cons_self (fun _ => mem_cons_of_mem _) type

/-- Of names that are all different the first is bound next. -/
theorem nodup_next {names : List String} (hnames : (name :: names ++ bound).Nodup) :
    name ∉ bound ∧ (names ++ name :: bound).Nodup := by
  refine ⟨fun hmem => ?_, perm_middle.nodup_iff.mpr hnames⟩
  exact (nodup_cons.mp hnames).1 (mem_append_right names hmem)

include hp

/-- Private copies are declared in a new frame; looking up the originals binds no name there. -/
theorem determines_privatizeAll {outer : FrameId} (houter : outer < frame)
    {entries : List (String × Privatization)} (hnames : (entries.map Prod.fst ++ bound).Nodup) :
    Determines o (Limited frame (· ∈ bound))
      (entries.forM fun entry => privatize outer frame entry.1 entry.2) fun _ =>
        Limited frame (· ∈ (entries.map Prod.fst).reverse ++ bound) := by
  induction entries generalizing bound with
  | nil => exact .pure fun _ _ hm => hm
  | cons entry rest ih =>
    obtain ⟨hname, hrest⟩ := nodup_next hnames
    refine .bind (M := fun _ => Limited frame (· ∈ entry.1 :: bound)) ?_ fun _ => by simpa using ih hrest
    refine .bind (determines_resolveName outer _ fun hle => absurd houter (Nat.not_lt.mpr hle)) fun shared => ?_
    refine .bind (determines_declare hname shared.type) fun address => ?_
    refine .ite ?_ (.pure fun _ _ hm => hm)
    exact weaken ((certainRules hp frame _).copyObject _ address _) fun _ _ hm => hm.2

/-- A function's frame binds its parameters one after the other. -/
theorem determines_bindParameters {params : List Member} (hnames : (params.map (·.name) ++ bound).Nodup)
    {values : List (ValueSet Int Double)} (hvalues : ∀ value ∈ values, value.Single) :
    Determines o (Limited frame (· ∈ bound)) (bindParameters frame (params.zip values)) fun _ _ => True := by
  induction params generalizing values bound with
  | nil => exact .pure fun _ _ _ => trivial
  | cons param rest ih =>
    cases values with
    | nil => exact .pure fun _ _ _ => trivial
    | cons value others =>
      obtain ⟨hname, hrest⟩ := nodup_next hnames
      obtain ⟨hvalue, hothers⟩ := forall_mem_cons.mp hvalues
      refine .bind (determines_declare hname param.type) fun address => ?_
      refine .ite (.throw _) (.bind ((certainRules hp frame _).writeAs hvalue address _) fun _ => ?_)
      exact from_pre (ih hrest hothers) fun _ _ hm => hm.2

/-- The task that runs a block is in a new frame that binds the private copies. -/
theorem determines_startBlock {task : BlockTask} (hnames : (task.privatized.map Prod.fst).Nodup)
    (hready : m.HasFrame state.frame ∧ task.thread ≤ m.teams.lastThread) :
    Determines o (· = m) (startBlock state task) fun worker m' => worker.thread = task.thread ∧
      m'.Hosts worker ∧ Limited worker.frame (· ∈ task.privatized.map Prod.fst) m' := by
  let R := hosting hp
  have hlasts {frame} {m m'} (hextends : Extends m m')
      (hm : (m.HasFrame state.frame ∧ task.thread ≤ m.teams.lastThread) ∧ m.HasFrame frame) :
      (m'.HasFrame state.frame ∧ task.thread ≤ m'.teams.lastThread) ∧ m'.HasFrame frame :=
    ⟨⟨hm.1.1.later hextends, Nat.le_trans hm.1.2 hextends.threads⟩, hm.2.later hextends⟩
  refine R.after hlasts ⟨hready, hready.1⟩ (.aside fun _ => ⟨_, _, _, _, _, rfl, Nat.le_refl _⟩) fun m _ hm _ => ?_
  refine R.carry hlasts hm (determines_newFrame m task.block ?_) fun m frame hm hframe => ?_
  · rintro id ⟨⟩
    exact hm.2
  have hprivatize : R.Runs m (fun m _ => Limited frame (· ∈ task.privatized.map Prod.fst) m)
      (task.privatized.forM fun entry => privatize state.frame frame entry.1 entry.2) := by
    have hnames : (task.privatized.map Prod.fst ++ []).Nodup := by simpa using hnames
    refine weaken (from_pre (determines_privatizeAll hp (hframe.2.1 _ rfl) hnames) ?_) ?_
    · exact fun _ _ hsame => hsame ▸ hframe.2.2 _
    · exact fun _ _ hlimited => hlimited.mono (by simp)
  refine R.carry hlasts ⟨hm.1, hframe.1⟩ hprivatize fun m _ hm hlimited => ?_
  refine R.bind (determines_pushKont ?_ ?_ _) fun m' kont _ hsame => ?_
  · exact hm.1.1
  · exact trivial
  obtain ⟨allocator, konts, rfl⟩ := hsame
  refine .read fun _ _ _ => .check fun control _ => .pure fun _ _ hsame => ?_
  subst hsame
  exact ⟨rfl, ⟨hm.2, hm.1.2⟩, hlimited⟩

variable (honce : o.program.DeclaresOnce)

include honce

theorem determines_callFunction (hthread : state.thread ≤ m.teams.lastThread) (function : NodeId)
    (args : List NodeId) (kont : KontAddress) :
    Determines o (· = m) (callFunction state function args kont) fun called m' =>
      called.thread = state.thread ∧ m'.Hosts called := by
  let R := hosting hp
  let d := certainRules hp 0 fun _ => True
  have hlasts {m m'} (hextends : Extends m m') (hthread : state.thread ≤ m.teams.lastThread) :
      state.thread ≤ m'.teams.lastThread := Nat.le_trans hthread hextends.threads
  refine .read fun seen hseen _ => ?_
  rw [program, hseen.outline]
  split
  next name returns params body hconstruct =>
    refine .ite (.throw _) ?_
    refine R.after hlasts hthread (d.mapM args fun arg _ => d.eval state fun _ _ => trivial)
      fun m values hthread hvalues => ?_
    refine R.carry hlasts hthread (determines_newFrame m body nofun) fun m frame hthread hframe => ?_
    have hnames : ((Construct.funcDef name returns params body).boundTogether ++ []).Nodup := by
      simpa using honce.nodup hconstruct
    have hbind : R.Runs m (fun _ _ => True) (bindParameters frame (params.zip values)) :=
      from_pre (determines_bindParameters hp hnames hvalues.2) fun _ _ hsame => hsame ▸ hframe.2.2 _
    refine R.carry Hosts.later (⟨hframe.1, hthread⟩ : m.Hosts ⟨.invoke, frame, kont, state.thread, none⟩) hbind
      fun m _ hcalled _ => ?_
    refine .read fun _ _ _ => .check fun control _ => .pure fun _ _ hsame => ?_
    subst hsame
    exact ⟨rfl, hcalled.frame, hcalled.thread⟩
  next => exact .throw _

/-! ## Steps -/

/-- Every operation of a step goes on with one task, or starts tasks in threads of their own. -/
def succeeding : TaskStepRules Int Double where
  toTaskRules := hosting hp
  Sole := True
  Fresh m privatized frame := Limited frame (· ∈ privatized.map Prod.fst) m
  free _ _ _ _ := trivial
  names _ _ _ := trivial
  ready hstate := ⟨hstate.frame, hstate.thread⟩
  outcomes _ hvalues houtcomes := Nat.le_of_eq (length_truths hvalues houtcomes)
  teams _ hact := .aside fun m => ⟨_, _, _, _, _, rfl, hact m.teams⟩
  push hready _ hsound _ := (hosting hp).weaken (determines_pushKont hready.1 hsound _)
    fun _ _ hlater _ => (hosting hp).remains hlater hready
  call args hready _ := determines_callFunction hp honce hready.2 _ args _
  newThread hstate := by
    rintro m hm rfl
    refine ⟨hm.aside _ _ _ _, ⟨Nat.le_refl _, Nat.le_succ _⟩, fun thread m' hrun => ?_⟩
    cases hrun
    exact ⟨fun _ => Nat.ne_of_gt (Nat.lt_succ_of_le hstate.thread), hstate.frame, Nat.le_refl _⟩
  start _ hshows hof _ hready := by
    have hnames := honce.nodup ((hosting hp).rules.construct_of_shows (fun _ hm => hm.outline) hshows)
    refine determines_startBlock hp ?_ hready
    cases hof with
    | region => exact hnames
    | iteration => exact (nodup_cons.mp hnames).2
    | lock => exact nodup_nil
  counter type hshows hfresh := by
    have hnames := honce.nodup ((hosting hp).rules.construct_of_shows (fun _ hm => hm.outline) hshows)
    refine weaken (from_pre (determines_declare (nodup_cons.mp hnames).1 type) ?_)
      fun _ _ _ => trivial
    exact fun _ _ hsame => hsame ▸ hfresh
  behind _ _ _ _ hstate := .pure fun _ _ hsame => by
    subst hsame
    split <;> exact ⟨hstate.frame, hstate.thread⟩
  wait _ _ hstate := .pure fun _ _ hsame => hsame ▸ ⟨hstate.frame, hstate.thread⟩

theorem succeeding_stores : (succeeding hp honce).Stores where
  returned _ _ := .freely hp (.aside fun _ => ⟨_, _, _, _, _, rfl, Nat.le_refl _⟩)
  size hnext := .read fun _ _ _ => hnext _
  slot hready hnext := secures_slot extending fun konts hm hslot => by
    obtain ⟨kont, rfl, hframe, hsound⟩ := hm.konts hslot
    have hready' := And.intro hframe hready.2
    exact hnext [kont] (fun _ => Nat.le_refl 1)
      (forall_mem_singleton.mpr ⟨hready', fun _ => hready', trivial, hsound⟩)

/-- A step leads to at most one task of the thread that takes it. -/
theorem determines_step (state : State) :
    Determines o (fun m => m.Hosts state) (step state) (Succeeds state.thread) := by
  intro m hm hstate
  let R := succeeding hp honce
  have hawake : R.Stands m state.awake := ⟨hstate.frame, hstate.thread⟩
  have hstep : R.Runs m (R.Succeeds state.thread) (step state) :=
    TaskStepRules.step (TaskStepRules.invoke (succeeding_stores hp honce)) hawake fun _ _ _ => trivial
  obtain ⟨hsharp, hextends, hresult⟩ := hstep m hm rfl
  refine ⟨hsharp, hextends, fun states m' hrun => ?_⟩
  obtain ⟨hone, hstands⟩ := hresult states m' hrun
  exact ⟨hone trivial, hstands⟩

end Steps

end CoreC.Machine
