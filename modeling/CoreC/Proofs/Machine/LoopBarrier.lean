import CoreC.Proofs.Machine.Pursuit

/-! # The end of a parallel loop

A thread that meets a parallel loop waits behind it, unless told not to. Whenever a thread that
waits there goes on, all iterations that were started before have come to their end. A thread
other than the first that meets the loop before the iterations are started finds nothing to wait
for and goes on ahead of them.
-/

namespace CoreC

open Builder Option Machine Control List

namespace Config

variable {ι φ : Type} [DecidableEq ι] [BEq φ] [Domain ι φ]

/-- A task of a configuration is stepped or woken, and some tasks come in its place. -/
inductive Moves : Config ι φ → State → List State → Config ι φ → Prop where
  | step {m m' : Machine ι φ} {before after states : List State} {state : State}
      (hawake : state.barrier = none) (hstep : Machine.step state m = .ok states m')
      (hfork : ∀ node, state.control = .expr node → states.length ≤ 1) :
      Moves ⟨m, before ++ state :: after⟩ state states ⟨m', before ++ states ++ after⟩
  | wake {m : Machine ι φ} {before after : List State} {state : State} {barrier : Barrier}
      (hwaits : state.barrier = some barrier) (hclear : m.teams.isClear barrier = true) :
      Moves ⟨m, before ++ state :: after⟩ state [state.awake] ⟨m, before ++ [state.awake] ++ after⟩

/-- Some moves lead from the one configuration to the other. -/
inductive Later (c : Config ι φ) : Config ι φ → Prop where
  | refl : Later c c
  | move {now next : Config ι φ} {task : State} {tasks : List State} (hlater : Later c now)
      (hmoves : now.Moves task tasks next) : Later c next

variable {p : Program} {settings : Settings} {c c' now next : Config ι φ} {task : State}
  {tasks : List State} {goal : KontAddress}

theorem Moves.live_eq (hmoves : c.Moves task tasks c') : ∃ before after,
    c.live = before ++ task :: after ∧ c'.live = before ++ tasks ++ after := by
  cases hmoves <;> exact ⟨_, _, rfl, rfl⟩

theorem Moves.step_eq (hmoves : c.Moves task tasks c') (hawake : task.barrier = none) :
    Machine.step task c.machine = .ok tasks c'.machine := by
  cases hmoves with
  | step _ hstep _ => exact hstep
  | wake hwaits _ => cases hawake.symm.trans hwaits

theorem Reachable.moves (hreach : c.Reachable p settings) (hmoves : c.Moves task tasks c') :
    c'.Reachable p settings := by
  cases hmoves with
  | step hawake hstep hfork => exact .step hreach hawake hstep hfork
  | wake hwaits hclear =>
    rw [append_assoc, singleton_append]
    exact .wake hreach hwaits hclear

theorem Reachable.later (hreach : c.Reachable p settings) (hlater : c.Later now) :
    now.Reachable p settings := by
  induction hlater with
  | refl => exact hreach
  | move _ hmoves ih => exact ih.moves hmoves

/-- Some live task is on its way to the continuation. -/
def AtWork (c : Config ι φ) (goal : KontAddress) : Prop :=
  ∃ state ∈ c.live, c.machine.konts.Leads goal state.kont

/-- Between the two configurations a task that had only returns in front of it came to the
continuation and ended there. -/
def Finished (c now : Config ι φ) (goal : KontAddress) : Prop :=
  ∃ reached left task, c.Later reached ∧ reached.Moves task [] left ∧ left.Later now ∧
    reached.machine.konts.Returns goal task.kont

section

variable [Domain.Productive ι φ]

section

variable (hkonts : settings.konts = .concrete) (hreach : c.Reachable p settings)

include hkonts hreach

theorem Moves.onward (hmoves : c.Moves task tasks c') : Onward task c.machine tasks c'.machine := by
  cases hmoves with
  | step hawake hstep hfork =>
    exact onward_step ((hreach.accounted hkonts).perm perm_middle) hstep
  | wake hwaits hclear => exact .of_mem (.refl _) mem_cons_self rfl

/-- What is at work stays so until it is finished. -/
theorem AtWork.moves
    (hends : c.machine.konts.Ends goal) (hwork : c.AtWork goal) (hmoves : c.Moves task tasks c') :
    c'.AtWork goal ∨ tasks = [] ∧ c.machine.konts.Returns goal task.kont := by
  have honward := hmoves.onward hkonts hreach
  obtain ⟨state, hstate, hleads⟩ := hwork
  obtain ⟨before, after, hlive, hlive'⟩ := hmoves.live_eq
  rw [hlive] at hstate
  have hother (hmem : state ∈ before ∨ state ∈ after) : c'.AtWork goal := by
    refine ⟨state, ?_, hleads.within honward.within⟩
    rw [hlive']
    rcases hmem with hmem | hmem <;> simp [hmem]
  rcases mem_append.mp hstate with hbefore | hrest
  · exact .inl (hother (.inl hbefore))
  · rcases mem_cons.mp hrest with rfl | hafter
    · rcases honward.leads hends hleads with ⟨next, hnext, hgoes⟩ | hfinished
      · refine .inl ⟨next, ?_, hgoes⟩
        rw [hlive']
        simp [hnext]
      · exact .inr hfinished
    · exact .inl (hother (.inr hafter))

/-- By induction on the moves. -/
theorem AtWork.later
    (hends : c.machine.konts.Ends goal) (hwork : c.AtWork goal) (hlater : c.Later now) :
    c.machine.konts.Within now.machine.konts ∧ (now.AtWork goal ∨ c.Finished now goal) := by
  induction hlater with
  | refl => exact ⟨.refl _, .inl hwork⟩
  | @move now next task tasks hlater hmoves ih =>
    obtain ⟨hwithin, hstatus⟩ := ih
    have hthere := hreach.later hlater
    refine ⟨hwithin.trans (hmoves.onward hkonts hthere).within, ?_⟩
    rcases hstatus with hwork | ⟨reached, left, last, hreached, hleft, hsince, hreturns⟩
    · rcases hwork.moves hkonts hthere (hends.within hwithin) hmoves with hwork | ⟨rfl, hreturns⟩
      · exact .inl hwork
      · exact .inr ⟨now, next, task, hlater, hmoves, .refl, hreturns⟩
    · exact .inr ⟨reached, left, last, hreached, hleft, hsince.move hmoves, hreturns⟩

/-- While a task is on its way to a barrier the barrier is not clear. -/
theorem AtWork.not_isClear {kont : Continuation} {barrier : Barrier} {mode : ReleaseMode}
    (hslot : c.machine.konts.slots[goal]? = some [kont]) (hkind : kont.kind = .release barrier mode)
    (hwork : c.AtWork goal) : c.machine.teams.isClear barrier = false := by
  have haccounted := hreach.accounted hkonts
  obtain ⟨state, hstate, hleads⟩ := hwork
  have hmem := hleads.mem_activeChain haccounted.linked hslot
  have hpositive : 0 < c.machine.konts.releases barrier c.live := by
    refine countP_pos_iff.mpr ⟨kont, mem_flatMap.mpr ⟨state, hstate, hmem⟩, ?_⟩
    simp [Continuation.releases, hkind]
  have hpending := haccounted.pending barrier
  simp only [Teams.isClear, decide_eq_false_iff_not]
  omega

end

/-- Let a task meet a parallel loop, in whatever order tasks are stepped. It waits behind the loop,
and the iterations, which only the first thread of a team starts, end at the loop's barrier. Whenever
a task that waits for the barrier goes on after that, every one of these iterations has come to its
release. -/
theorem waiting_passes_after_iterations (hkonts : settings.konts = .concrete)
    (hreach : c.Reachable p settings) {state : State} {states : List State} {met : Config ι φ}
    (hmeets : c.Moves state states met) (hawake : state.barrier = none) {block node : NodeId}
    {index : Nat} (hcontrol : state.control = .stmt block index)
    (hstmt : state.control.stmt? c.machine.program = some node) {clauses : List Clause} {var : String}
    {init bound step body : NodeId} {condOp stepOp : BinOp}
    (hloop : c.machine.program.construct? node =
      some (.parallelFor clauses var init condOp bound stepOp step body))
    (hwait : .noWait ∉ clauses) :
    ∃ successor iterations, afterStmt c.machine.outline node = .ok successor ∧
      states = (state.goto successor).waitingOn (.construct node) :: iterations ∧
      (c.machine.teams.threadNum state.thread ≠ 0 → iterations = []) ∧
      (∀ iteration ∈ iterations, ∃ kont, met.machine.konts.slots[iteration.kont]? = some [kont] ∧
        kont.kind = .release (.construct node) .die) ∧
      ∀ (now next : Config ι φ) (task : State) (tasks : List State), met.Later now →
        now.Moves task tasks next → task.barrier = some (.construct node) →
        ∀ iteration ∈ iterations, met.Finished now iteration.kont := by
  have hmet := hreach.moves hmeets
  obtain ⟨before, after, hbefore, hlive⟩ := hmeets.live_eq
  obtain ⟨successor, iterations, hsuccessor, hstates, hfirst, hend⟩ := step_loop
    ((hreach.accounted hkonts).perm (hbefore ▸ perm_middle)) hcontrol hstmt hloop (hmeets.step_eq hawake)
  rw [if_neg hwait] at hstates
  subst hstates
  refine ⟨successor, iterations, hsuccessor, rfl, hfirst, hend, ?_⟩
  intro now next task tasks hlater hmoves hwaits iteration hiteration
  obtain ⟨kont, hslot, hkind⟩ := hend iteration hiteration
  have hends : met.machine.konts.Ends iteration.kont := ⟨kont, hslot, by simp [Continuation.isLast, hkind]⟩
  have hwork : met.AtWork iteration.kont := by
    refine ⟨iteration, ?_, .here⟩
    rw [hlive]
    simp [hiteration]
  obtain ⟨hwithin, hstatus⟩ := hwork.later hkonts hmet hends hlater
  rcases hstatus with hstill | hfinished
  · -- The barrier is clear when a task that waits for it moves.
    have hclosed := hstill.not_isClear hkonts (hmet.later hlater) (hwithin _ _ hslot) hkind
    cases hmoves with
    | step hawake _ _ =>
      rw [hawake] at hwaits
      cases hwaits
    | wake hbarrier hclear =>
      cases hbarrier.symm.trans hwaits
      rw [hclosed] at hclear
      cases hclear
  · exact hfinished

end

/-! ## A loop that the first thread meets late -/

/-- Two threads run a loop with one iteration, the first of them after two more statements. -/
def lateFirstThread : Program := program do
  let counter ← decl "i" .int none
  let isFirst ← binary .eq (← call "omp_get_thread_num" []) (← int 0)
  let delay ← ifElse isFirst (← block [← empty, ← empty]) none
  let loop ← parallelFor [] "i" (← int 0) (← int 1) [← printf "i" []]
  let region ← parallel [] [delay, loop, ← printf "a" []]
  return [← function "main" .int [] [counter, region]]

/-- If the first thread gets there before the other, whoever waits behind the loop goes on after
its iteration. -/
theorem lateFirstThread_waits :
    ∃ (c met : Config Int Double) (iteration : State), c.Reachable lateFirstThread {} ∧
      c.Moves ⟨.stmt 20 1, 2, 1, 0, none⟩ [⟨.stmt 20 2, 2, 1, 0, some (.construct 16)⟩, iteration] met ∧
      ∀ (now next : Config Int Double) (task : State) (tasks : List State), met.Later now →
        now.Moves task tasks next → task.barrier = some (.construct 16) →
        met.Finished now iteration.kont := by
  have hrun : (follow? lateFirstThread {} [0, 0, 0, 0, 0, 0] : Option (Config Int Double)).any (fun c =>
      c.live = [⟨.stmt 20 1, 2, 1, 0, none⟩, ⟨.stmt 20 0, 3, 2, 1, none⟩] ∧
      (stmt 20 1).stmt? c.machine.program = some 16 ∧
      c.machine.program.construct? 16 = some (.parallelFor [] "i" 9 .lt 10 .add 14 15) ∧
      (answer? (Machine.step ⟨.stmt 20 1, 2, 1, 0, none⟩) c.machine).map (·.1.map (·.control)) =
        some [.stmt 20 2, .stmt 15 0]) = true := by
    decide +kernel
  obtain ⟨⟨m, live⟩, hfollow, hfacts⟩ := (any_eq_true _ _).mp hrun
  obtain ⟨hlive, hstmt, hloop, hanswer⟩ := of_decide_eq_true hfacts
  obtain ⟨⟨states, m'⟩, hstep, hcontrols⟩ := map_eq_some_iff.mp hanswer
  cases hlive
  have hreach := reachable_follow hfollow
  have hmeets : Moves ⟨m, [] ++ ⟨.stmt 20 1, 2, 1, 0, none⟩ :: [⟨.stmt 20 0, 3, 2, 1, none⟩]⟩
      ⟨.stmt 20 1, 2, 1, 0, none⟩ states ⟨m', [] ++ states ++ [⟨.stmt 20 0, 3, 2, 1, none⟩]⟩ :=
    .step rfl (eq_ok_of_answer? hstep) (by simp)
  obtain ⟨successor, iterations, hsuccessor, rfl, -, -, hpasses⟩ :=
    waiting_passes_after_iterations rfl hreach hmeets rfl rfl hstmt hloop (by simp)
  obtain ⟨hcontrol, hrest⟩ := cons_eq_cons.mp hcontrols
  obtain ⟨iteration, rfl, -⟩ := map_eq_singleton_iff.mp hrest
  cases (show successor = .stmt 20 2 from hcontrol)
  refine ⟨_, _, iteration, hreach, hmeets, ?_⟩
  intro now next task tasks hlater hmoves hwaits
  exact hpasses now next task tasks hlater hmoves hwaits iteration mem_cons_self

/-- If the other thread gets there first, it is behind the loop while the iteration is still to be
run, and nothing keeps it from being stepped. -/
theorem lateFirstThread_overtaken :
    ∃ (c next : Config Int Double) (tasks : List State), c.Reachable lateFirstThread {} ∧
      lateFirstThread.construct? 16 = some (.parallelFor [] "i" 9 .lt 10 .add 14 15) ∧
      lateFirstThread.construct? 20 = some (.compound [8, 16, 19]) ∧
      c.live = [⟨.stmt 20 2, 2, 1, 0, some (.construct 16)⟩, ⟨.stmt 15 0, 5, 5, 2, none⟩,
        ⟨.stmt 20 2, 3, 2, 1, none⟩] ∧
      c.live.map (c.holds (.construct 16)) = [false, true, false] ∧
      c.Moves ⟨.stmt 20 2, 3, 2, 1, none⟩ tasks next := by
  have hrun : (follow? lateFirstThread {} [0, 0, 1, 1, 1, 1, 0, 0, 0, 0, 0] :
      Option (Config Int Double)).any (fun c =>
      c.live = [⟨.stmt 20 2, 2, 1, 0, some (.construct 16)⟩, ⟨.stmt 15 0, 5, 5, 2, none⟩,
        ⟨.stmt 20 2, 3, 2, 1, none⟩] ∧
      c.live.map (c.holds (.construct 16)) = [false, true, false] ∧
      (answer? (Machine.step ⟨.stmt 20 2, 3, 2, 1, none⟩) c.machine).isSome = true) = true := by
    decide +kernel
  obtain ⟨⟨m, live⟩, hfollow, hfacts⟩ := (any_eq_true _ _).mp hrun
  obtain ⟨hlive, hholds, hanswer⟩ := of_decide_eq_true hfacts
  obtain ⟨⟨states, m'⟩, hstep⟩ := isSome_iff_exists.mp hanswer
  cases hlive
  have hmoves : Moves ⟨m, [⟨.stmt 20 2, 2, 1, 0, some (.construct 16)⟩, ⟨.stmt 15 0, 5, 5, 2, none⟩] ++
      ⟨.stmt 20 2, 3, 2, 1, none⟩ :: []⟩ ⟨.stmt 20 2, 3, 2, 1, none⟩ states _ :=
    .step rfl (eq_ok_of_answer? hstep) (by simp)
  exact ⟨_, _, states, reachable_follow hfollow, rfl, rfl, rfl, hholds, hmoves⟩

end Config

end CoreC
