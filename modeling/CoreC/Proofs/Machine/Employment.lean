import CoreC.Proofs.Machine.MutualExclusion
import CoreC.Proofs.Machine.Staffing

/-! # Steps keep the books of the teams

A parallel region takes its threads off the limit, makes them and numbers them. A parallel loop
makes tasks that have the position of the thread that met it and are not counted as at work. A task
that leaves its region, or ends with it, is taken off the books. So the books agree with the
continuations after every step, and only the step that opens a region adds to the regions that
there are.
-/

namespace CoreC

open List Continuation

/-- The region that a task opens with its next step, which leads to the given tasks. -/
def State.opened (p : Program) (state : State) (states : List State) : List Region :=
  match states with
  | first :: workers => if state.opens p then [⟨state.thread, first.kont, workers.length⟩] else []
  | [] => []

namespace Machine

variable {ι φ : Type} {limit : Nat} {regions : List Region} {state : State} {rest states : List State}
  {m m' : Machine ι φ}

/-- Both the barriers and the teams agree with the continuations of the live tasks. -/
def Manned (limit : Nat) (regions : List Region) (live : List State) (m : Machine ι φ) : Prop :=
  Accounted [] live m ∧ Staffed limit 0 regions live m

theorem Manned.perm {live live' : List State} (hm : Manned limit regions live m) (hperm : live.Perm live') :
    Manned limit regions live' m := ⟨hm.1.perm hperm, hm.2.perm hperm⟩

/-! ## Parallel constructs -/

section Makes

variable {task : ThreadId → BlockTask} {enlist : List State → ThreadId → Teams → Teams} {count : Nat}
  {started : List State}

/-- Tasks whose threads come onto the books one after the other, each of them as promised. -/
theorem Staffed.makes (promised : Nat → Nat) {node : NodeId} {worker : Bool}
    (hmakes : Makes state task enlist count started m states m')
    (hmode : ∀ thread, (task thread).mode = .die)
    (hbarrier : ∀ thread, (task thread).barrier = .construct node)
    (hthread : ∀ thread, (task thread).thread = thread)
    (hpending : ∀ started thread teams barrier,
      (enlist started thread teams).pending barrier = teams.pending barrier)
    (hbooks : ∀ {left : Nat} {t : Teams} {posts : List Post} (started : List State),
      t.Staffed limit (promised (left + 1)) regions posts →
      (enlist started t.newThread.1 t.newThread.2).Staffed limit (promised left) regions
        (⟨t.newThread.1, [], worker⟩ :: posts))
    (hm : Staffed limit (promised count) regions (started ++ rest) m)
    (haccounted : Accounted [] (started ++ rest) m) (hbelow : state.kont < m.allocator.next)
    (hworker : m.program.isRegion node = worker) :
    Staffed limit (promised 0) regions (states ++ rest) m' := by
  induction hmakes with
  | done => exact hm.perm ((reverse_perm _).symm.append_right rest)
  | more hstarts hstill _ ih =>
    have hmade := hm.enlist haccounted hstarts (hmode _) (hbarrier _) hbelow
      (by rw [hthread, hworker]; exact hbooks _ hm.books)
    obtain ⟨haccounted', hbelow'⟩ := Accounted.starts_last hstarts (haccounted.teams (hpending _ _ _))
      hbelow (hmode _) (by simp [hbarrier])
    refine ih (hmade.still hstill) (haccounted'.still hstill) (hstill.allocator ▸ hbelow') ?_
    rw [hstill.program, hstarts.program]
    exact hworker

/-- Threads that enter a team one after the other are numbered in their order. -/
theorem Makes.numbered {size : Nat} {before : Teams} (hmakes : Makes state task
      (fun started thread teams => teams.enterTeam thread ⟨started.length, size, false⟩) count started m
      states m')
    (hthread : ∀ thread, (task thread).thread = thread) (hsome : started ≠ [])
    (hknown : ∀ worker ∈ started, worker.thread ≤ m.teams.lastThread)
    (hm : m.teams.Numbered size (started.reverse.map (·.thread)) before) :
    m'.teams.Numbered size (states.map (·.thread)) before := by
  induction hmakes with
  | done => exact hm
  | @more _ started _ worker m made next _ hstarts hstill _ ih =>
    obtain ⟨hslots, hlast, hworker⟩ := hstarts.teams
    rw [← hstill.slots] at hslots
    have hlast : next.teams.lastThread = m.teams.lastThread + 1 := by rw [hstill.teams]; exact hlast
    rw [hthread] at hworker
    -- Threads are numbered upwards, so a new one is none of those that entered before.
    have hnew : m.teams.newThread.1 ∉ started.reverse.map (·.thread) := by
      intro hmem
      obtain ⟨other, hother, heq⟩ := mem_map.mp hmem
      exact Nat.not_succ_le_self _ (heq ▸ hknown other (mem_reverse.mp hother))
    refine ih (cons_ne_nil _ _) (forall_mem_cons.mpr ⟨?_, fun other hother => ?_⟩) ?_
    · rw [hworker, hlast]
      exact Nat.le_refl _
    · exact hlast ▸ Nat.le_succ_of_le (hknown other hother)
    · have hnext : m.teams.newThread.2.Numbered size (started.reverse.map (·.thread)) before := hm
      have hentered := hnext.enterTeam (by simpa) hnew
      rw [reverse_cons, map_append, map_singleton, hworker]
      rw [length_map, length_reverse] at hentered
      exact hentered.congr hslots rfl

end Makes

/-- The thread that meets a region opens it, and it and the threads that the region obtained are
numbered in their order. -/
theorem Staffed.opens {node : NodeId} (hopens : Opens state node m states m')
    (hm : Manned limit regions (state :: rest) m) (hnode : m.program.isRegion node = true) :
    ∃ first workers, states = first :: workers ∧ first.thread = state.thread ∧
      Staffed limit 0 (⟨state.thread, first.kont, workers.length⟩ :: regions) (states ++ rest) m' ∧
      m'.teams.Numbered states.length (states.map (·.thread)) m.teams := by
  obtain ⟨hspare, hentered, hfirst, hworkers⟩ := hopens
  obtain ⟨hstarted, hbelow⟩ := Accounted.starts hfirst (hm.1.teams fun _ => by rw [hentered]; rfl)
    (by simp) (by simp)
  have hopened := hm.2.openRegion hm.1 hspare hentered hfirst rfl rfl
  have hstaffed := Staffed.makes id hworkers (fun _ => rfl) (fun _ => rfl) (fun _ => rfl)
    (fun _ _ _ _ => rfl) (fun _ hbooks => hbooks.hire rfl) hopened hstarted hbelow
    (hfirst.program ▸ hnode)
  obtain ⟨hslots, -, hthread⟩ := hfirst.teams
  obtain ⟨-, -, workers, rfl, rfl, -⟩ :=
    Accounted.makes hworkers (fun _ => rfl) (fun _ => rfl) (fun _ _ _ _ => rfl) hstarted hbelow
  refine ⟨_, workers, rfl, hthread, hstaffed, ?_⟩
  refine hworkers.numbered (fun _ => rfl) (by simp) (fun worker hworker => ?_) ?_
  · exact hopened.books.known _ (mem_map_of_mem (mem_append_left rest hworker))
  · rw [reverse_singleton, map_singleton, hthread]
    exact (Teams.numbered_enterTeam (m.teams.takeThreads _).2 state.thread (by simp)).congr
      (hslots.trans (congrArg Teams.slots hentered)) rfl

/-! ## Steps -/

/-- Handing something to the continuation of a task, unless that forks the task. -/
theorem Staffed.hands {forks : Bool} (hhands : Hands m forks state states m')
    (hlinked : m.konts.Linked m.allocator.next) (hm : Staffed limit 0 regions (state :: rest) m)
    (hforks : forks = true → states.length ≤ 1) : Staffed limit 0 regions (states ++ rest) m' := by
  induction hhands with
  | halts hkont hstill => exact (hm.drop (by rw [hkont]; rfl) (by rw [hkont]; rfl)).still hstill
  | resumes hslot hplain hstill hstates hsome hone =>
    obtain ⟨next, rfl⟩ := exists_singleton hsome hone hforks
    obtain ⟨hkont, hthread⟩ := hstates next mem_cons_self
    exact (hm.pop hlinked hslot hplain.isLast hplain.awaits hkont hthread).still hstill
  | returns hslot hkind hkont hthread _ ih =>
    have hplain := IsPlain.of_ret hkind
    exact ih (hm.pop hlinked hslot hplain.isLast hplain.awaits hkont hthread) hforks
  | @ends state kont barrier _ hslot hkind hleft =>
    -- Whoever ends leaves the barrier; the thread of a worker is gone as well.
    have hlast : kont.isLast = true := by simp [isLast, hkind]
    have hbarrier := hm.leaveBarrier barrier
    subst hleft
    split
    next hworker => exact hbarrier.retire hlinked hslot hlast hworker
    next hworker =>
      refine hbarrier.drop ?_ ?_
      · exact (hlinked.joins_eq hslot).trans (by simp [hlast, awaits_of_isLast hlast])
      · exact (hlinked.isWorker_eq hslot m.program).trans (by simpa [hlast] using hworker)
  | joins hslot hkind hstill hkont hthread =>
    exact ((hm.leaveBarrier _).join hlinked hslot (by simp [awaits, hkind]) hkont
      hthread).still hstill
  | unlocks hslot hkind hstill hkont hthread =>
    exact ((hm.leaveBarrier _).pop hlinked hslot (by simp [isLast, hkind])
      (by simp [awaits, hkind]) hkont hthread).still hstill

/-- One case for each transition that opens no region. -/
theorem Staffed.goes {forks : Bool} (hgoes : Goes forks state m states m')
    (hm : Manned limit regions (state :: rest) m) (hopens : state.opens m.program = false)
    (hforks : forks = true → states.length ≤ 1) : Staffed limit 0 regions (states ++ rest) m' := by
  induction hgoes with
  | after hstill _ ih =>
    exact ih ⟨hm.1.still hstill, hm.2.still hstill⟩ (hstill.program ▸ hopens) hforks
  | proceeds hkont hthread => exact hm.2.proceed hkont hthread
  | pushes hplain hparent hstill hkont hthread =>
    exact (hm.2.push_under hm.1 rfl (.refl _) hplain.isLast hplain.awaits hparent hkont hthread).still
      hstill
  | hands hhands => exact Staffed.hands hhands hm.1.linked hm.2 hforks
  | locks _ hstarts =>
    obtain ⟨hstill, hkont, hthread⟩ := hstarts
    exact hm.2.push_under hm.1 rfl hstill rfl rfl rfl hkont hthread
  | opens hopening => exact absurd (hopens.symm.trans hopening) Bool.false_ne_true
  | loops hnode hkont hthread hloop =>
    obtain ⟨body, privatized, hmakes⟩ := hloop
    exact Staffed.makes (fun _ => 0) hmakes (fun _ => rfl) (fun _ => rfl) (fun _ => rfl)
      (fun _ _ _ _ => Teams.pending_inherit _ _ _ _) (fun _ hbooks => hbooks.delegate _)
      (hm.2.proceed hkont hthread) (hm.1.same_kont hkont) (hm.1.known state mem_cons_self) hnode

variable [DecidableEq ι] [BEq φ] [Domain ι φ] [Domain.Productive ι φ]

variable (hm : Manned limit regions (state :: rest) m)

include hm

/-- What a step of a task that opens a region leads to. -/
theorem step_opens (hopens : state.opens m.program = true) (hrun : step state m = .ok states m') :
    ∃ first workers, states = first :: workers ∧ first.thread = state.thread ∧
      Staffed limit 0 (⟨state.thread, first.kont, workers.length⟩ :: regions) (states ++ rest) m' ∧
      m'.teams.Numbered states.length (states.map (·.thread)) m.teams := by
  unfold State.opens at hopens
  unfold step at hrun
  cases hcontrol : state.control with
  | invoke | expr =>
    rw [hcontrol] at hopens
    cases hopens
  | stmt block index =>
    rw [hcontrol] at hopens hrun
    have hexecute := get_bind_eq_ok.mp hrun
    cases hstmt : (Control.stmt block index).stmt? m.program with
    | none =>
      rw [hstmt] at hexecute
      cases hexecute
    | some stmt =>
      rw [hstmt] at hexecute hopens
      obtain ⟨clauses, body, hfound⟩ := Program.isRegion_iff.mp hopens
      obtain ⟨construct, _, hconstruct, hstart⟩ := bind_eq_ok.mp hexecute
      obtain ⟨hsame, rfl⟩ := constructAt_eq_ok.mp hconstruct
      cases hfound.symm.trans hsame
      obtain ⟨asked, hasked, hteam⟩ := opens_of_startTeam hstart hm.1.chained.toReady
      obtain ⟨first, workers, rfl, hthread, hstaffed, hnumbered⟩ := Staffed.opens hteam
        ⟨hm.1.still hasked, hm.2.still hasked⟩ (hasked.program ▸ hopens)
      exact ⟨first, workers, rfl, hthread, hstaffed, hnumbered.congr rfl hasked.slots.symm⟩

/-- A step keeps the books, unless it forks a condition. -/
theorem staffed_step (hrun : step state m = .ok states m')
    (hfork : ∀ node, state.control = .expr node → states.length ≤ 1) :
    Staffed limit 0 (state.opened m.program states ++ regions) (states ++ rest) m' := by
  cases hopens : state.opens m.program with
  | true =>
    obtain ⟨first, workers, rfl, -, hstaffed, -⟩ := step_opens hm hopens hrun
    simpa [State.opened, hopens] using hstaffed
  | false =>
    have hnone : state.opened m.program states = [] := by
      unfold State.opened
      split <;> simp [hopens]
    rw [hnone, nil_append]
    obtain ⟨forks, hforks, hgoes⟩ := goes_of_step hm.1.chained hrun
    refine Staffed.goes hgoes hm hopens fun hforked => ?_
    obtain ⟨node, hcontrol⟩ := hforks hforked
    exact hfork node hcontrol

end Machine

end CoreC
