import CoreC.Proofs.Machine.Transition

/-! # Barriers keep count

The count of a barrier is the number of times that live tasks are still to leave it. Every
step of a task keeps the two equal: a task that enters a structured block is counted and
gets a continuation that leaves the barrier, and both go when that continuation is invoked.
-/

namespace CoreC

open KontTable List Std Teams KontAllocator

variable {task : Machine.BlockTask} {worker : State} {mode : ReleaseMode}

theorem Barrier.code_inj {a b : Barrier} : a.code = b.code ↔ a = b := by
  cases a <;> cases b <;> simp [code]

namespace Teams

variable (t : Teams)

theorem pending_enterBarrier (entered barrier : Barrier) :
    (t.enterBarrier entered).pending barrier =
      if entered = barrier then t.pending barrier + 1 else t.pending barrier := by
  unfold enterBarrier pending
  rw [TreeMap.getD_insert]
  simp only [Std.compare_eq_iff_eq, Barrier.code_inj]
  split
  next heq => rw [heq]
  next => rfl

theorem pending_leaveBarrier (left barrier : Barrier) : (t.leaveBarrier left).pending barrier =
      if left = barrier then t.pending barrier - 1 else t.pending barrier := by
  unfold leaveBarrier pending
  rw [TreeMap.getD_modify]
  simp only [Std.compare_eq_iff_eq, Barrier.code_inj]
  split
  next heq =>
    subst heq
    rw [TreeMap.getD_eq_getD_getElem?]
    cases t.barriers[left.code]? <;> rfl
  next => rfl

theorem pending_leaveTeam (thread : ThreadId) (barrier : Barrier) :
    (t.leaveTeam thread).pending barrier = t.pending barrier := by
  unfold leaveTeam
  split <;> rfl

theorem pending_inherit (creator thread : ThreadId) (barrier : Barrier) :
    (t.inherit creator thread).pending barrier = t.pending barrier := by
  unfold inherit
  split <;> rfl

end Teams

namespace KontTable

theorem releases_cons (t : KontTable) (barrier : Barrier) (state : State) (live : List State) :
    t.releases barrier (state :: live) =
      (t.activeChain state.kont).countP (·.releases barrier) + t.releases barrier live := by
  simp [releases]

end KontTable

namespace Machine

variable {ι φ : Type}

theorem withKont_slot (m : Machine ι φ) (kont : Continuation) :
    (m.withKont kont).konts.slots[m.allocator.next]? = some [kont] := by
  rw [withKont, getElem?_write, if_pos rfl]

/-- A task that starts a block does so under a new continuation that leaves the barrier. -/
theorem Starts.stores {state : State} {m m' : Machine ι φ} (hstarts : Starts state task m worker m')
    (hlinked : m.konts.Linked m.allocator.next) :
    m.konts.Within m'.konts ∧ m'.konts.slots[worker.kont]? =
      some [⟨.release task.barrier task.mode, task.resume, state.frame, state.kont⟩] := by
  cases hstarts with
  | @start middle _ hstill hkont _ =>
    have hkonts : middle.konts = m.konts := hstill.konts
    have hallocator : middle.allocator = m.allocator := hstill.allocator
    rw [hkont, ← hallocator, ← hkonts]
    rw [← hallocator, ← hkonts] at hlinked
    exact ⟨.write hlinked _, withKont_slot middle _⟩

/-- The tasks end at the barrier, each under a continuation of its own. -/
def EndAt (barrier : Barrier) (states : List State) (m : Machine ι φ) : Prop :=
  ∀ state ∈ states, ∃ kont, m.konts.slots[state.kont]? = some [kont] ∧
    kont.kind = .release barrier .die

/-- The counts of all barriers agree with the continuations of the live tasks, up to tasks
that were counted for `entering` and have no continuation yet. No two tasks are past the
lock. -/
structure Accounted (entering : List Barrier) (live : List State) (m : Machine ι φ) : Prop where
  policy : m.allocator.policy = .concrete
  positive : halt < m.allocator.next
  linked : m.konts.Linked m.allocator.next
  known : ∀ state ∈ live, state.kont < m.allocator.next
  pending : ∀ barrier,
    m.teams.pending barrier = entering.count barrier + m.konts.releases barrier live
  lock : m.teams.pending .critical ≤ 1
  filled : m.store.Filled

namespace Accounted

variable {m m' : Machine ι φ} {entering : List Barrier} {state next : State} {rest live : List State}

variable {live' : List State}

section

variable (hm : Accounted entering live m)

include hm

theorem still (hstill : Still m m') : Accounted entering live m' where
  policy := by rw [hstill.allocator, hm.policy]
  positive := by rw [hstill.allocator]; exact hm.positive
  linked := by rw [hstill.konts, hstill.allocator]; exact hm.linked
  known := by rw [hstill.allocator]; exact hm.known
  pending barrier := by rw [hstill.pending, hstill.konts, hm.pending]
  lock := by rw [hstill.pending]; exact hm.lock
  filled := hstill.filled hm.filled

theorem chained : Chained m.outline m :=
  ⟨⟨⟨rfl, hm.filled⟩, hm.policy⟩, _, hm.linked⟩

/-- Of the teams only what they count for barriers matters. -/
theorem teams {teams : Teams}
    (hteams : ∀ barrier, teams.pending barrier = m.teams.pending barrier) :
    Accounted entering live { m with teams } :=
  { hm with
    pending := fun barrier => (hteams barrier).trans (hm.pending barrier)
    lock := (hteams .critical).symm ▸ hm.lock }

/-- The live tasks may be replaced by others from which the same barriers are left. -/
theorem relive (hknown : ∀ state ∈ live', state.kont < m.allocator.next)
    (hreleases : ∀ barrier, m.konts.releases barrier live' = m.konts.releases barrier live) :
    Accounted entering live' m :=
  { hm with known := hknown, pending := fun barrier => by rw [hm.pending, hreleases] }

/-- Of the live tasks only their continuations matter. -/
theorem of_konts
    (hkonts : (live.map (·.kont)).Perm (live'.map (·.kont))) : Accounted entering live' m := by
  refine hm.relive (fun state hstate => ?_) fun barrier => ?_
  · obtain ⟨other, hother, hsame⟩ := mem_map.mp (hkonts.mem_iff.mpr (mem_map_of_mem hstate))
    exact hsame ▸ hm.known other hother
  · unfold releases
    rw [← flatMap_map State.kont, ← flatMap_map State.kont]
    exact ((hkonts.flatMap_right _).countP_eq _).symm

theorem perm (hperm : live.Perm live') :
    Accounted entering live' m := hm.of_konts (hperm.map _)

end

section

variable (hm : Accounted entering (state :: rest) m)

include hm

/-- A task may go on under another continuation from which the same barriers are left. -/
theorem exchange (hnext : next.kont < m.allocator.next)
    (hcount : ∀ barrier, (m.konts.activeChain next.kont).countP (·.releases barrier) =
      (m.konts.activeChain state.kont).countP (·.releases barrier)) :
    Accounted entering (next :: rest) m := by
  refine hm.relive (forall_mem_cons.mpr ⟨hnext, (forall_mem_cons.mp hm.known).2⟩) ?_
  intro barrier
  rw [releases_cons, releases_cons, hcount]

theorem same_kont (hnext : next.kont = state.kont) : Accounted entering (next :: rest) m :=
  hm.exchange (hnext ▸ hm.known state mem_cons_self) fun barrier => by rw [hnext]

/-- A task from which no barrier is left may end. -/
theorem drop
    (hcount : ∀ barrier, (m.konts.activeChain state.kont).countP (·.releases barrier) = 0) :
    Accounted entering rest m := by
  refine hm.relive (forall_mem_cons.mp hm.known).2 fun barrier => ?_
  rw [releases_cons, hcount, Nat.zero_add]

end

variable {kont : Continuation}

/-- A task under a continuation that leaves no barrier may go on under its parent. -/
theorem pop (hm : Accounted entering (state :: rest) m)
    (hslot : m.konts.slots[state.kont]? = some [kont]) (hplain : kont.IsPlain)
    (hnext : next.kont = kont.parent) : Accounted entering (next :: rest) m := by
  obtain ⟨_, heq, hparent, haddress⟩ := hm.linked.slot hslot
  cases heq
  refine hm.exchange (hnext ▸ Nat.lt_trans hparent haddress) fun barrier => ?_
  rw [hm.linked.activeChain_eq hslot, hplain.isLast, hnext]
  simp [hplain.releases]

/-- A task starts under a new continuation, from which the barriers are left that the
continuation and its parents leave. -/
theorem push (hm : Accounted entering live m) {entering' : List Barrier} (hparent : kont.parent < m.allocator.next)
    (hknown : ∀ state ∈ live', state.kont < m.allocator.next) (hnext : next.kont = m.allocator.next)
    (hpending : ∀ barrier, m.teams.pending barrier = entering'.count barrier +
      ((kont :: if kont.isLast then [] else m.konts.activeChain kont.parent).countP
        (·.releases barrier) + m.konts.releases barrier live')) :
    Accounted entering' (next :: live') (m.withKont kont) := by
  have hold barrier :
      (m.withKont kont).konts.releases barrier live' = m.konts.releases barrier live' := by
    have hchains : live'.map (fun state => (m.withKont kont).konts.activeChain state.kont) =
        live'.map fun state => m.konts.activeChain state.kont :=
      map_congr_left fun state hstate => hm.linked.activeChain_write kont (hknown state hstate)
    simp only [releases, flatMap, hchains]
  have hnew : (m.withKont kont).konts.activeChain next.kont =
      kont :: if kont.isLast then [] else m.konts.activeChain kont.parent := by
    rw [hnext]
    exact hm.linked.activeChain_new hparent
  exact { hm with
    positive := Nat.lt_succ_of_lt hm.positive
    linked := hm.linked.write hparent
    known := forall_mem_cons.mpr
      ⟨hnext ▸ Nat.lt_succ_self _, fun state hstate => Nat.lt_succ_of_lt (hknown state hstate)⟩
    pending := fun barrier => by
      rw [releases_cons, hold, hnew]
      exact hpending barrier }

/-- A continuation that leaves no barrier, on top of those of the task. -/
theorem push_plain (hm : Accounted entering (state :: rest) m)
    (hplain : kont.IsPlain) (hparent : kont.parent = state.kont)
    (hnext : next.kont = m.allocator.next) : Accounted entering (next :: rest) (m.withKont kont) := by
  obtain ⟨hstate, hrest⟩ := forall_mem_cons.mp hm.known
  refine hm.push (hparent ▸ hstate) hrest hnext fun barrier => ?_
  rw [hm.pending, releases_cons, hplain.isLast, hparent]
  simp [hplain.releases]

variable {barrier : Barrier}

/-- A continuation for a task that was counted, on top of those of the task. -/
theorem push_release (hm : Accounted (barrier :: entering) (state :: rest) m)
    (hkind : kont.kind = .release barrier mode) (hmode : mode ≠ .die)
    (hparent : kont.parent = state.kont) (hnext : next.kont = m.allocator.next) :
    Accounted entering (next :: rest) (m.withKont kont) := by
  obtain ⟨hstate, hrest⟩ := forall_mem_cons.mp hm.known
  have hlast : kont.isLast = false := by cases mode <;> simp_all [Continuation.isLast]
  refine hm.push (hparent ▸ hstate) hrest hnext fun other => ?_
  rw [hm.pending, releases_cons, hlast, hparent]
  simp only [Continuation.releases, hkind, count_cons, countP_cons, beq_iff_eq,
    decide_eq_true_eq, Bool.false_eq_true, ↓reduceIte]
  omega

/-- A continuation for a task that was counted and that ends with its block. -/
theorem push_last (hm : Accounted (barrier :: entering) live m) (hkind : kont.kind = .release barrier .die)
    (hparent : kont.parent < m.allocator.next) (hnext : next.kont = m.allocator.next) :
    Accounted entering (next :: live) (m.withKont kont) := by
  have hlast : kont.isLast = true := by simp [Continuation.isLast, hkind]
  refine hm.push hparent hm.known hnext fun other => ?_
  rw [hm.pending, hlast]
  simp only [Continuation.releases, hkind, count_cons, countP_cons, countP_nil,
    beq_iff_eq, decide_eq_true_eq, ↓reduceIte]
  omega

/-- A task is counted before it enters a block. -/
theorem enter (hm : Accounted entering live m) (barrier : Barrier)
    (hfree : barrier = .critical → m.teams.pending .critical = 0) :
    Accounted (barrier :: entering) live { m with teams := m.teams.enterBarrier barrier } :=
  { hm with
    pending := fun other => by
      dsimp only
      rw [pending_enterBarrier, hm.pending, count_cons]
      simp only [beq_iff_eq]
      split <;> omega
    lock := by
      dsimp only
      rw [pending_enterBarrier]
      split
      next heq => exact Nat.le_of_eq (congrArg (· + 1) (hfree heq))
      next => exact hm.lock }

variable {states : List State}

/-- A task that leaves a barrier is counted no longer and goes on, or ends. -/
theorem leave (hm : Accounted entering (state :: rest) m)
    (hslot : m.konts.slots[state.kont]? = some [kont]) (hkind : kont.kind = .release barrier mode)
    (hstates : states = if mode = .die then [] else [next]) (hnext : next.kont = kont.parent) :
    Accounted entering (states ++ rest) { m with teams := m.teams.leaveBarrier barrier } := by
  obtain ⟨_, heq, hparent, haddress⟩ := hm.linked.slot hslot
  cases heq
  have hchain := hm.linked.activeChain_eq hslot
  have hlast : kont.isLast = decide (mode = .die) := by cases mode <;> simp [Continuation.isLast, hkind]
  have hreleases other : kont.releases other = decide (barrier = other) := by
    simp [Continuation.releases, hkind]
  have hcount other : m.konts.releases other (state :: rest) =
      (if barrier = other then 1 else 0) + m.konts.releases other (states ++ rest) := by
    rw [releases_cons, hchain, hlast, hstates]
    by_cases hdie : mode = .die
    · simp [hdie, hreleases]
    · simp only [hdie, decide_false, Bool.false_eq_true, ↓reduceIte, countP_cons, hreleases,
        decide_eq_true_eq, cons_append, nil_append, releases_cons, hnext]
      omega
  exact { hm with
    known := by
      obtain ⟨-, hrest⟩ := forall_mem_cons.mp hm.known
      rw [hstates]
      split
      · exact hrest
      · exact forall_mem_cons.mpr ⟨hnext ▸ Nat.lt_trans hparent haddress, hrest⟩
    pending := by
      intro other
      dsimp only
      rw [pending_leaveBarrier, hm.pending, hcount]
      split <;> omega
    lock := by
      have hlock := hm.lock
      dsimp only
      rw [pending_leaveBarrier]
      split <;> omega }

/-! ## Transitions -/

/-- The first task of a region, or a task in a critical section, takes the place of the task
that met the construct. -/
theorem starts (hstarts : Starts state task m worker m') (hm : Accounted [] (state :: rest) m)
    (hmode : task.mode ≠ .die) (hfree : task.barrier = .critical → m.teams.pending .critical = 0) :
    Accounted [] (worker :: rest) m' ∧ state.kont < m'.allocator.next := by
  cases hstarts with
  | start hstill hkont _ =>
    have hmiddle := (hm.enter task.barrier hfree).still hstill
    have hkont := hkont.trans (congrArg next hstill.allocator).symm
    refine ⟨hmiddle.push_release rfl hmode rfl hkont, ?_⟩
    exact Nat.lt_succ_of_lt (hmiddle.known state mem_cons_self)

/-- A task that ends with its block comes to the tasks there are. -/
theorem starts_last (hstarts : Starts state task m worker m') (hm : Accounted [] live m)
    (hbelow : state.kont < m.allocator.next) (hmode : task.mode = .die)
    (hbarrier : task.barrier ≠ .critical) :
    Accounted [] (worker :: live) m' ∧ state.kont < m'.allocator.next := by
  cases hstarts with
  | start hstill hkont _ =>
    have hmiddle := (hm.enter task.barrier fun hcritical => absurd hcritical hbarrier).still hstill
    have hnext := congrArg next hstill.allocator
    have hparent : state.kont < _ := Nat.lt_of_lt_of_eq hbelow hnext.symm
    exact ⟨hmiddle.push_last (by rw [hmode]) hparent (hkont.trans hnext.symm), Nat.lt_succ_of_lt hparent⟩

/-- By induction on the tasks still to be made. They end at the barrier of the construct, and nothing
that was stored is lost. -/
theorem makes {task : ThreadId → BlockTask} {enlist : List State → ThreadId → Teams → Teams} {count : Nat}
    {started states : List State} {node : NodeId}
    (hmakes : Makes state task enlist count started m states m')
    (hmode : ∀ thread, (task thread).mode = .die)
    (hbarrier : ∀ thread, (task thread).barrier = .construct node)
    (henlist : ∀ started thread teams barrier,
      (enlist started thread teams).pending barrier = teams.pending barrier)
    (hm : Accounted [] (started ++ rest) m) (hbelow : state.kont < m.allocator.next) :
    Accounted [] (states ++ rest) m' ∧ m.konts.Within m'.konts ∧ ∃ tasks,
      states = started.reverse ++ tasks ∧ tasks.length = count ∧ EndAt (.construct node) tasks m' := by
  induction hmakes with
  | done =>
    exact ⟨hm.perm ((reverse_perm _).symm.append_right rest), .refl _, [],
      (append_nil _).symm, rfl, forall_mem_nil _⟩
  | @more _ _ _ worker _ _ _ _ hstarts hstill _ ih =>
    obtain ⟨hmade, hbelow⟩ := starts_last hstarts (hm.teams (henlist _ _ _)) hbelow (hmode _)
      (by simp [hbarrier])
    obtain ⟨hwithin, hslot⟩ := hstarts.stores hm.linked
    rw [← hstill.konts] at hwithin hslot
    obtain ⟨hall, hlater, tasks, rfl, rfl, hend⟩ := ih (hmade.still hstill) (hstill.allocator ▸ hbelow)
    refine ⟨hall, hwithin.trans hlater, worker :: tasks, by simp, rfl, forall_mem_cons.mpr ⟨?_, hend⟩⟩
    exact ⟨_, hlater _ _ hslot, by rw [hmode, hbarrier]⟩

/-- Handing something to the continuation of a task, unless that forks the task. -/
theorem hands {forks : Bool} (hhands : Hands m forks state states m')
    (hm : Accounted [] (state :: rest) m) (hforks : forks = true → states.length ≤ 1) :
    Accounted [] (states ++ rest) m' := by
  induction hhands with
  | halts hkont hstill => exact (hm.still hstill).drop fun barrier => by rw [hkont]; rfl
  | resumes hslot hplain hstill hstates hsome hone =>
    obtain ⟨next, rfl⟩ := exists_singleton hsome hone hforks
    exact (hm.pop hslot hplain (hstates next mem_cons_self).1).still hstill
  | returns hslot hkind hkont _ _ ih =>
    exact ih (hm.pop hslot (.of_ret hkind) hkont) hforks
  | @ends state kont _ _ hslot hkind hleft =>
    have hnext : ({ state with kont := kont.parent } : State).kont = kont.parent := rfl
    refine (hm.leave hslot hkind rfl hnext).teams fun barrier => ?_
    rw [hleft]
    split <;> rfl
  | joins hslot hkind hstill hkont _ =>
    exact ((hm.leave hslot hkind rfl hkont).teams fun _ => pending_leaveTeam _ _ _).still hstill
  | unlocks hslot hkind hstill hkont _ => exact (hm.leave hslot hkind rfl hkont).still hstill

/-- One case for each transition. -/
theorem goes {forks : Bool} (hgoes : Goes forks state m states m')
    (hm : Accounted [] (state :: rest) m) (hforks : forks = true → states.length ≤ 1) :
    Accounted [] (states ++ rest) m' := by
  induction hgoes with
  | after hstill _ ih => exact ih (hm.still hstill) hforks
  | proceeds hkont _ => exact hm.same_kont hkont
  | pushes hplain hparent hstill hkont _ => exact (hm.push_plain hplain hparent hkont).still hstill
  | hands hhands => exact hands hhands hm hforks
  | locks hfree hstarts => exact (starts hstarts hm (by simp) fun _ => hfree).1
  | opens _ _ hteam =>
    obtain ⟨-, hentered, hfirst, hworkers⟩ := hteam
    subst hentered
    obtain ⟨hstarted, hbelow⟩ := starts hfirst (hm.teams fun _ => rfl) (by simp) (by simp)
    exact (makes hworkers (fun _ => rfl) (fun _ => rfl) (fun _ _ _ _ => rfl) hstarted hbelow).1
  | loops _ hkont _ hloop =>
    obtain ⟨body, privatized, hmakes⟩ := hloop
    exact (makes hmakes (fun _ => rfl) (fun _ => rfl) (fun _ _ _ _ => pending_inherit _ _ _ _)
      (hm.same_kont hkont) (hm.known state mem_cons_self)).1

end Accounted

end Machine

end CoreC
