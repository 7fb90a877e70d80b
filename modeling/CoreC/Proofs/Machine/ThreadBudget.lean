import CoreC.Proofs.Machine.Employment
import CoreC.Proofs.Program.Tree

/-! # The budget of threads

Tasks are stepped in any order. As long as no condition forks a task, the count of threads at work
is one more than the number of live tasks that parallel regions made, and keeps to the limit. The
count of active levels is the number of regions that obtained a thread and that the thread which
opened them is still to leave. The threads of a team are numbered from zero on.
-/

namespace CoreC

open Machine List Builder Domain

/-- The first task of a program is at the post of the first thread. -/
theorem Machine.staffed_start {ι φ : Type} [DecidableEq ι] [BEq φ] [Domain ι φ] [Productive ι φ]
    {p : Program} {settings : Settings} {m m' : Machine ι φ} {first : State}
    (hnew : new p settings = .ok m) (hstart : start m = .ok first m') :
    Staffed settings.teams.threadLimit 0 [] [first] m' := by
  obtain ⟨outline, -, hreturn⟩ := exists_of_bind_ok hnew
  cases hreturn
  have hfilled : (Store.new settings.target settings.update settings.heap : Store ι φ).Filled := by
    intro key cell hcell
    simp [Store.new] at hcell
  obtain ⟨-, hstill, hkont, hthread, -⟩ := (stillRules outline).start _ _ _ ⟨rfl, hfilled⟩ hstart
  refine Staffed.still ⟨?_, by simp, by simp⟩ hstill
  simp only [map_singleton, post, hkont, hthread]
  exact Teams.staffed_new settings.teams

namespace Config

variable {ι φ : Type} [DecidableEq ι] [BEq φ] [Domain ι φ]

/-- The configurations that a program can get to, together with the parallel regions that were
opened on the way, latest first. -/
inductive Traced (p : Program) (settings : Settings) : List Region → Config ι φ → Prop where
  | start {m m' : Machine ι φ} {first : State} (hnew : new p settings = .ok m)
      (hstart : start m = .ok first m') : Traced p settings [] ⟨m', [first]⟩
  | step {regions : List Region} {m m' : Machine ι φ} {before after states : List State} {state : State}
      (htraced : Traced p settings regions ⟨m, before ++ state :: after⟩) (hawake : state.barrier = none)
      (hstep : Machine.step state m = .ok states m')
      (hfork : ∀ node, state.control = .expr node → states.length ≤ 1) :
      Traced p settings (state.opened p states ++ regions) ⟨m', before ++ states ++ after⟩
  | wake {regions : List Region} {m : Machine ι φ} {before after : List State} {state : State}
      {barrier : Barrier} (htraced : Traced p settings regions ⟨m, before ++ state :: after⟩)
      (hwaits : state.barrier = some barrier) (hclear : m.teams.isClear barrier = true) :
      Traced p settings regions ⟨m, before ++ state.awake :: after⟩

section Traced

variable {p : Program} {settings : Settings} {regions : List Region} {c : Config ι φ}

theorem Traced.reachable (htraced : c.Traced p settings regions) : c.Reachable p settings := by
  induction htraced with
  | start hnew hstart => exact .start hnew hstart
  | step _ hawake hstep hfork ih => exact .step ih hawake hstep hfork
  | wake _ hwaits hclear ih => exact .wake ih hwaits hclear

theorem Reachable.exists_traced (hreach : c.Reachable p settings) : ∃ regions, c.Traced p settings regions := by
  induction hreach with
  | start hnew hstart => exact ⟨[], .start hnew hstart⟩
  | step _ hawake hstep hfork ih =>
    obtain ⟨regions, htraced⟩ := ih
    exact ⟨_, .step htraced hawake hstep hfork⟩
  | wake _ hwaits hclear ih =>
    obtain ⟨regions, htraced⟩ := ih
    exact ⟨regions, .wake htraced hwaits hclear⟩

/-- A machine runs the program that it was made for. -/
theorem Reachable.program (hreach : c.Reachable p settings) : c.machine.program = p := by
  induction hreach with
  | start hnew hstart =>
    obtain ⟨outline, houtline, hreturn⟩ := exists_of_bind_ok hnew
    cases hreturn
    obtain ⟨-, hsame, -⟩ := Machine.programRules.start _ _ _ trivial hstart
    rw [Machine.program, hsame.1]
    exact (Outline.tree_ofProgram houtline).2.1
  | step _ _ hstep _ ih =>
    obtain ⟨-, hsame, -⟩ := Machine.programRules.step _ _ _ _ trivial hstep
    rw [Machine.program, hsame.1]
    exact ih
  | wake _ _ _ ih => exact ih

variable [Productive ι φ]

/-- The books agree with the live tasks in whatever order they were stepped. -/
theorem Traced.manned (hkonts : settings.konts = .concrete) (htraced : c.Traced p settings regions) :
    Manned settings.teams.threadLimit regions c.live c.machine := by
  induction htraced with
  | @start m m' first hnew hstart =>
    refine ⟨accounted_start hkonts hnew hstart, ?_⟩
    exact staffed_start hnew hstart
  | @step regions m m' before after states state htraced _ hstep hfork ih =>
    have hprogram : m.program = p := htraced.reachable.program
    have hfront := Manned.perm ih perm_middle
    have hstaffed := staffed_step hfront hstep hfork
    rw [hprogram] at hstaffed
    refine Manned.perm ⟨accounted_step hfront.1 hstep hfork, hstaffed⟩ ?_
    rw [← append_assoc]
    exact perm_append_comm.append_right after
  | @wake regions m before after state barrier _ _ _ ih =>
    have hfront := Manned.perm ih perm_middle
    have hawake : Manned settings.teams.threadLimit regions (state.awake :: (before ++ after)) m :=
      ⟨hfront.1.same_kont rfl, hfront.2.proceed rfl rfl⟩
    exact hawake.perm perm_middle.symm

end Traced

/-! ## The counts -/

/-- The active chain of the task ends where a task of a parallel region ends. -/
def isWorker (p : Program) (c : Config ι φ) (state : State) : Bool :=
  c.machine.konts.isWorker p state.kont

/-- The thread that opened the region is still to reach the continuation at which it leaves it. -/
def isOpen (c : Config ι φ) (region : Region) : Bool :=
  c.live.any fun state => state.thread = region.thread ∧
    region.address ∈ (c.machine.konts.route state.kont).map (·.1)

/-- What the books of the teams guarantee. -/
structure WithinBudget (p : Program) (settings : Settings) (c : Config ι φ) : Prop where
  /-- Besides the first thread those are at work that parallel regions made. -/
  busy : c.machine.teams.busy = 1 + c.live.countP (c.isWorker p)
  limit : c.machine.teams.busy ≤ max 1 settings.teams.threadLimit
  /-- However the configuration was got to, the regions that count as active are those that
  obtained a thread and that are still to be left by the thread that opened them. -/
  levels : ∀ {regions}, c.Traced p settings regions →
    c.machine.teams.activeLevels = regions.countP fun region => 0 < region.workers ∧ c.isOpen region
  /-- A region is left at a continuation of its own, to wait for its other threads. -/
  released : ∀ {regions}, c.Traced p settings regions →
    (regions.map (·.address)).Nodup ∧ ∀ region ∈ regions, ∃ kont barrier,
      c.machine.konts.slots[region.address]? = some [kont] ∧ kont.kind = .release barrier .wait
  /-- A step that opens a region leads to the tasks of its team, whose threads are numbered from
  zero on in their order. -/
  numbered : ∀ {state states m}, state ∈ c.live →
    state.opens p = true → Machine.step state c.machine = .ok states m →
    (∃ first workers, states = first :: workers ∧ first.thread = state.thread) ∧
      (states.map (·.thread)).Nodup ∧
      m.teams.Numbered states.length (states.map (·.thread)) c.machine.teams

section Counts

variable {p : Program} {settings : Settings} {regions : List Region} {c : Config ι φ}
  [Productive ι φ] (hkonts : settings.konts = .concrete)
include hkonts

section

variable (htraced : c.Traced p settings regions)

include htraced

theorem Traced.activeLevels_eq : c.machine.teams.activeLevels =
      regions.countP fun region => 0 < region.workers ∧ c.isOpen region := by
  obtain ⟨haccounted, hstaffed⟩ := htraced.manned hkonts
  have hjoins : ∀ post ∈ c.live.map c.machine.post, post.joins.Nodup := by
    intro post hpost
    obtain ⟨state, -, rfl⟩ := mem_map.mp hpost
    exact (haccounted.linked.route_spec state.kont).2.sublist (filter_sublist.map _)
  rw [hstaffed.books.activeLevels_eq hstaffed.addresses hjoins]
  refine countP_congr fun region hregion => ?_
  obtain ⟨kont, hslot, hawaits⟩ := hstaffed.awaited region hregion
  simp only [decide_eq_true_eq, isOpen, any_eq_true, mem_map, exists_exists_and_eq_and]
  refine and_congr_right fun _ => exists_congr fun state => and_congr_right fun _ => and_congr_right fun _ => ?_
  have hiff : region.address ∈ c.machine.konts.joins state.kont ↔ _ :=
    haccounted.linked.mem_joins_iff hslot hawaits
  simp only [mem_map] at hiff
  exact hiff

theorem Traced.released : (regions.map (·.address)).Nodup ∧ ∀ region ∈ regions, ∃ kont barrier,
      c.machine.konts.slots[region.address]? = some [kont] ∧ kont.kind = .release barrier .wait := by
  obtain ⟨-, hstaffed⟩ := htraced.manned hkonts
  refine ⟨hstaffed.addresses, fun region hregion => ?_⟩
  obtain ⟨kont, hslot, hawaits⟩ := hstaffed.awaited region hregion
  unfold Continuation.awaits at hawaits
  split at hawaits
  next barrier hkind => exact ⟨kont, barrier, hslot, hkind⟩
  next => cases hawaits

theorem Traced.numbered {state : State} {states : List State}
    {m : Machine ι φ} (hstate : state ∈ c.live) (hopens : state.opens p = true)
    (hstep : Machine.step state c.machine = .ok states m) :
    (∃ first workers, states = first :: workers ∧ first.thread = state.thread) ∧
      (states.map (·.thread)).Nodup ∧
      m.teams.Numbered states.length (states.map (·.thread)) c.machine.teams := by
  obtain ⟨before, after, hlive⟩ := append_of_mem hstate
  have hmanned := htraced.manned hkonts
  rw [hlive] at hmanned
  rw [← htraced.reachable.program] at hopens
  obtain ⟨first, workers, rfl, hthread, hstaffed, hnumbered⟩ :=
    Machine.step_opens (hmanned.perm perm_middle) hopens hstep
  refine ⟨⟨first, workers, rfl, hthread⟩, ?_, hnumbered⟩
  have hthreads := hstaffed.books.threads
  rw [map_map, map_append] at hthreads
  exact (nodup_append.mp hthreads).1

end

/-- In whatever order tasks are stepped, the count of threads at work is right and keeps to the
limit, active regions are counted, and teams are numbered. -/
theorem threads_within_budget (hreach : c.Reachable p settings) : c.WithinBudget p settings := by
  obtain ⟨regions, htraced⟩ := hreach.exists_traced
  obtain ⟨-, hstaffed⟩ := htraced.manned hkonts
  refine ⟨?_, hstaffed.books.limited, fun htraced => htraced.activeLevels_eq hkonts,
    fun htraced => htraced.released hkonts, fun hstate hopens hstep => ?_⟩
  · have hbusy := hstaffed.books.busy
    rw [countP_map] at hbusy
    change _ = 1 + c.live.countP fun state => c.machine.konts.isWorker p state.kont
    simpa [Function.comp_def, post, hreach.program] using hbusy
  · exact htraced.numbered hkonts hstate hopens hstep

end Counts

/-! ## A run with nested regions -/

/-- Every thread of a region opens a region of its own. -/
def nestedTeams : Program := program do
  let inside ← empty
  let inner ← parallel [] [inside]
  let outer ← parallel [] [inner]
  return [← function "main" .int [] [outer]]

/-- Three threads may be at work, in regions that are nested once. -/
def nestedSettings : Settings := { teams := { threadLimit := 3, nested := true, maxActiveLevels := 2 } }

/-- The two threads of the outer region opened an inner one each. Only the first of them obtained
a thread; then the limit was reached. -/
theorem nestedTeams_within_budget :
    ∃ c : Config Int Double, c.Reachable nestedTeams nestedSettings ∧
      c.live.map (c.isWorker nestedTeams) = [false, true, true] ∧ c.machine.teams.busy = 3 ∧
      (∃ regions, c.Traced nestedTeams nestedSettings regions ∧
        (regions.countP fun region => 0 < region.workers ∧ c.isOpen region) = 2) ∧
      c.WithinBudget nestedTeams nestedSettings := by
  have hrun : (follow? nestedTeams nestedSettings [0, 0, 2] : Option (Config Int Double)).map (fun c =>
      (c.live.map (c.isWorker nestedTeams), c.machine.teams.busy, c.machine.teams.activeLevels)) =
      some ([false, true, true], 3, 2) := by decide +kernel
  obtain ⟨c, hfollow, hc⟩ := Option.map_eq_some_iff.mp hrun
  simp only [Prod.mk.injEq] at hc
  have hreach := reachable_follow hfollow
  have hbudget : c.WithinBudget nestedTeams nestedSettings := threads_within_budget rfl hreach
  obtain ⟨regions, htraced⟩ := hreach.exists_traced
  exact ⟨c, hreach, hc.1, hc.2.1, ⟨regions, htraced, (hbudget.levels htraced).symm.trans hc.2.2⟩, hbudget⟩

end Config

end CoreC
