import CoreC.Machine.Run
import CoreC.Program.Builder
import CoreC.Proofs.Machine.Passage
import CoreC.Proofs.Machine.Still
import CoreC.Proofs.Task.Schedule

/-! # Sweeps

A sweep drops the continuations that no pending task leads to. Whenever a run sweeps, all its
steps are those of the run that never does: only the number of stored continuations differs.

A schedule with `dedup` drops a state that was made ready before over memory of the same age.
That is seen: a step also depends on the continuations stored at its address, and storing more
of them makes memory no older.
-/

namespace CoreC

open Machine Domain KontTable List

variable {ι φ : Type}

/-- A step of a run: the task, what came of it, and the machines before and after it. -/
structure Event (ι φ : Type) where
  task : State
  outcome : Except Fault (List State)
  before : Machine ι φ
  after : Machine ι φ

/-- The steps of a run and how it ended. -/
structure History (ι φ : Type) where
  events : List (Event ι φ)
  fault : Option Fault
  machine : Machine ι φ
  schedule : Schedule

/-- All of a machine but its continuations. -/
def Machine.bare (m : Machine ι φ) : Machine ι φ := { m with konts := .empty }

def Event.bare (event : Event ι φ) : Event ι φ :=
  { event with before := event.before.bare, after := event.after.bare }

namespace History

def after (event : Event ι φ) (h : History ι φ) : History ι φ := { h with events := event :: h.events }

def bare (h : History ι φ) : History ι φ :=
  { h with events := h.events.map Event.bare, machine := h.machine.bare }

/-- What a run answers. -/
def ending (h : History ι φ) : Option Fault × Machine ι φ × Schedule := (h.fault, h.machine, h.schedule)

theorem bare_after (event : Event ι φ) (h : History ι φ) :
    (h.after event).bare = h.bare.after event.bare := rfl

end History

namespace Machine

variable [DecidableEq ι] [BEq φ] [Domain ι φ]

/-! ## Runs that sweep at any points -/

def sweepIf (m : Machine ι φ) (due : Bool) (s : Schedule) : Machine ι φ := if due then m.sweep s else m

omit [DecidableEq ι] [BEq φ] [Domain ι φ] in
theorem sweepIf_false (m : Machine ι φ) (s : Schedule) : m.sweepIf false s = m := rfl

/-- The run that sweeps wherever `due` says so of the number of steps left. -/
def history (due : Nat → Bool) : Nat → Machine ι φ → Schedule → History ι φ
  | remaining, m, s =>
    let m := m.sweepIf (due remaining) s
    match s.next m.teams with
    | .error fault => ⟨[], some fault, m, s⟩
    | .ok (none, s) => ⟨[], none, m, s⟩
    | .ok (some state, s) =>
      match remaining with
      | 0 => ⟨[], some (.stepLimit m.settings.maxSteps), m, s⟩
      | remaining + 1 =>
        match step state m with
        | .error fault m' => ⟨[⟨state, .error fault, m, m'⟩], some fault, m', s⟩
        | .ok states m' =>
          (history due remaining m' (s.addAll m'.teams m'.store.generation states)).after
            ⟨state, .ok states, m, m'⟩

/-- The points at which a run sweeps by itself. -/
def regularly (settings : Settings) (remaining : Nat) : Bool :=
  remaining < settings.maxSteps && settings.konts = .concrete &&
    (settings.maxSteps - remaining) % sweepInterval = 0

variable {settings : Settings} {m m' : Machine ι φ} {s : Schedule} {state : State} {states : List State}

/-- A run is a history that sweeps regularly. -/
theorem explore_eq_history (remaining : Nat)
    (hsettings : m.settings = settings) (hbound : remaining ≤ settings.maxSteps) :
    explore remaining (m.sweepIf (regularly settings remaining) s) s =
      (history (regularly settings) remaining m s).ending := by
  induction remaining generalizing m s with
  | zero =>
    unfold explore history
    dsimp only
    cases s.next (m.sweepIf (regularly settings 0) s).teams with
    | error fault => rfl
    | ok found => obtain ⟨_ | state, s'⟩ := found <;> rfl
  | succ remaining ih =>
    unfold explore history
    generalize hm : m.sweepIf (regularly settings (remaining + 1)) s = m'
    have hsettings' : m'.settings = settings := by
      rw [← hm, sweepIf]
      split <;> exact hsettings
    dsimp only
    cases s.next m'.teams with
    | error fault => rfl
    | ok found =>
      obtain ⟨_ | state, s'⟩ := found
      · rfl
      · dsimp only
        cases hstep : step state m' with
        | error fault n => rfl
        | ok states n =>
          have hn := (programRules.step _ _ _ _ trivial hstep).2.1.2.trans hsettings'
          have hdue : n.sweepDue (n.settings.maxSteps - remaining) = regularly settings remaining := by
            simp [sweepDue, regularly, hn, Nat.lt_of_succ_le hbound]
          dsimp only
          rw [hdue]
          exact ih hn (Nat.le_of_succ_le hbound)

/-! ## Sweeps are not seen -/

/-- The second machine still has all that pending tasks lead to. -/
def Serves (s : Schedule) (m m' : Machine ι φ) : Prop :=
  Trimmed m m' ∧ s.AllPending fun state => m'.konts.Holds state.kont

omit [DecidableEq ι] [BEq φ] [Domain ι φ] in
theorem Serves.sweepIf (hm : Serves s m m') (due : Bool) : Serves s m (m'.sweepIf due s) := by
  unfold Machine.sweepIf
  split
  · refine ⟨{ hm.1 with apart := ?_, within := ?_, closed := hm.1.closed.sweep _ }, fun state hstate => ?_⟩
    · rw [sweep, hm.1.apart]
    · exact (m'.konts.sweep_within _).trans hm.1.within
    · exact (hm.2 state hstate).sweep ((m'.konts.marks_live _).stacked _ (mem_map_of_mem hstate))
  · exact hm

/-- A step of the next task in both machines. -/
theorem Serves.matches_step (hdomain : Admits ι φ fun fault => fault.isOrdinary = true)
    {s s' : Schedule} (hm : Serves s m m') {state : State}
    (hnext : s.next m.teams = .ok (some state, s')) :
    Matches (fun states n n' => Serves (s'.addAll n.teams n.store.generation states) n n') (step state m)
      (step state m') := by
  have hawake (m' : Machine ι φ) (state : State) (hstate : m'.konts.Holds state.kont) :
      m'.konts.Holds state.awake.kont := hstate
  obtain ⟨hstate, hlater⟩ := hm.2.next (hawake m') hnext
  have habides : trimming.Abides ((state.kont, none) :: s'.pending.map State.stance) m m' := by
    refine ⟨hm.1, forall_mem_cons.mpr ⟨hstate, fun stance hstance => ?_⟩⟩
    obtain ⟨other, hother, rfl⟩ := mem_map.mp hstance
    exact hlater other hother
  have hstep := trimming.matches_step hdomain mem_cons_self habides fun _ _ => trivial
  refine hstep.weaken fun states n n' hn => ⟨hn.1, ?_⟩
  refine Schedule.AllPending.addAll (hawake n') (fun other hother => ?_) fun other hother => ?_
  · refine hn.2 other.stance (mem_append_right _ (mem_cons_of_mem _ (mem_map_of_mem hother)))
  · exact hn.2 other.stance (mem_append_left _ (mem_map_of_mem hother))

/-- By induction on the steps left. Between steps the machine that is swept has all
continuations that its pending tasks lead to. -/
theorem history_of_serves (hdomain : Admits ι φ fun fault => fault.isOrdinary = true)
    (due : Nat → Bool) (remaining : Nat) (hm : Serves s m m') :
    (history due remaining m' s).bare = (history (fun _ => false) remaining m s).bare ∧
      ∀ event ∈ (history due remaining m' s).events, ∀ fault, event.outcome = .error fault →
        fault.isOrdinary = true := by
  induction remaining generalizing m m' s with
  | zero =>
    obtain ⟨konts, hswept⟩ : ∃ konts, m'.sweepIf (due 0) s = { m with konts } :=
      ⟨_, (hm.sweepIf (due 0)).1.apart⟩
    unfold history
    rw [hswept]
    dsimp only [sweepIf_false]
    cases s.next m.teams with
    | error fault => exact ⟨rfl, by simp⟩
    | ok found => obtain ⟨_ | state, s'⟩ := found <;> exact ⟨rfl, by simp⟩
  | succ remaining ih =>
    have hswept := hm.sweepIf (due (remaining + 1))
    unfold history
    generalize m'.sweepIf (due (remaining + 1)) s = swept at hswept ⊢
    obtain ⟨konts, rfl⟩ : ∃ konts, swept = { m with konts } := ⟨_, hswept.1.apart⟩
    dsimp only [sweepIf_false]
    cases hnext : s.next m.teams with
    | error fault => exact ⟨rfl, by simp⟩
    | ok found =>
      obtain ⟨_ | state, s'⟩ := found
      · exact ⟨rfl, by simp⟩
      · have hstep := hswept.matches_step hdomain hnext
        dsimp only
        generalize step state m = result at hstep ⊢
        generalize step state { m with konts } = result' at hstep ⊢
        cases hstep with
        | error hfault => exact ⟨rfl, by simpa using hfault⟩
        | @ok states n n' hn =>
          obtain ⟨konts, rfl⟩ : ∃ konts, n' = { n with konts } := ⟨_, hn.1.apart⟩
          obtain ⟨hsame, hordinary⟩ := ih hn
          dsimp only
          rw [History.bare_after, History.bare_after, hsame]
          refine ⟨rfl, forall_mem_cons.mpr ⟨fun fault hfault => ?_, hordinary⟩⟩
          cases hfault

/-! ## Runs of a program -/

/-- The schedule of a run from a first task. -/
def opening (dedup : Bool) (m : Machine ι φ) (first : State) : Schedule :=
  (Schedule.new dedup).add m.teams m.store.generation first

/-- The machine before and after the start of a program, and the task that it starts. -/
def beginning? (p : Program) (settings : Settings) : Option (Machine ι φ × State × Machine ι φ) :=
  match Machine.new p settings with
  | .error _ => none
  | .ok m₀ =>
    match start m₀ with
    | .error _ _ => none
    | .ok first m => some (m₀, first, m)

theorem start_of_beginning {p : Program} {settings : Settings} {m₀ : Machine ι φ} {first : State}
    (hbegin : beginning? p settings = some (m₀, first, m)) :
    Machine.new p settings = .ok m₀ ∧ start m₀ = .ok first m := by
  unfold beginning? at hbegin
  split at hbegin
  · cases hbegin
  next hnew =>
    split at hbegin
    · cases hbegin
    next hstart =>
      cases hbegin
      exact ⟨hnew, hstart⟩

variable {p : Program}

omit [DecidableEq ι] [BEq φ] [Domain ι φ] in
theorem of_new (hnew : new p settings = .ok m) :
    m.settings = settings ∧ m.allocator = .new settings.konts ∧ m.konts = .empty := by
  obtain ⟨outline, -, hreturn⟩ := exists_of_bind_ok hnew
  cases hreturn
  exact ⟨rfl, rfl, rfl⟩

omit [DecidableEq ι] [BEq φ] [Domain ι φ] in
/-- At first no continuation is missing: none is stored. -/
theorem trimmed_new (hpolicy : settings.konts = .concrete)
    (hnew : new p settings = .ok m) : Trimmed m m := by
  obtain ⟨-, hallocator, hkonts⟩ := of_new hnew
  exact {
    apart := rfl
    policy := by rw [hallocator, KontAllocator.new, hpolicy]
    positive := by
      rw [hallocator]
      exact Nat.lt_succ_self halt
    linked := by
      rw [hkonts]
      exact linked_empty _
    within := Within.refl _
    closed := by
      intro address konts hslot
      simp [hkonts, empty] at hslot }

theorem serves_start (hdomain : Admits ι φ fun fault => fault.isOrdinary = true)
    (hpolicy : settings.konts = .concrete) {m m₀ : Machine ι φ} {first : State}
    (hnew : new p settings = .ok m) (hstart : start m = .ok first m₀) (dedup : Bool) :
    Serves (m₀.opening dedup first) m₀ m₀ := by
  have hstarted := Detached.tandem (detachedRules m.outline hdomain).start about_trimmed m m
    ⟨trimmed_new hpolicy hnew, rfl⟩
  rw [hstart] at hstarted
  cases hstarted with
  | ok hm =>
    refine ⟨hm.1.1, Schedule.AllPending.add (fun _ hstate => hstate) ?_ (.inl hm.2.kont)⟩
    exact forall_mem_nil _

/-- Wherever runs of a program sweep, their steps are the same but for the continuations stored
and no step misses a continuation. The run that the program has is one of them. -/
def SweepsUnseen (ι φ : Type) [DecidableEq ι] [BEq φ] [Domain ι φ] (p : Program) (settings : Settings) :
    Prop :=
  ∀ (m m₀ : Machine ι φ) (first : State), new p settings = .ok m → start m = .ok first m₀ →
    let s := m₀.opening (settings.update = .weak) first
    (∀ due due' limit, (history due limit m₀ s).bare = (history due' limit m₀ s).bare) ∧
    (∀ due limit, ∀ event ∈ (history due limit m₀ s).events, ∀ address,
      event.outcome ≠ .error (.unsupported (.noContinuation address))) ∧
    m.runAll = (history (regularly settings) settings.maxSteps m₀ s).ending

theorem sweepsUnseen (hdomain : Admits ι φ fun fault => fault.isOrdinary = true)
    (hkonts : settings.konts = .concrete) : SweepsUnseen ι φ p settings := by
  intro m m₀ first hnew hstart s
  have hm : Serves s m₀ m₀ := serves_start hdomain hkonts hnew hstart _
  refine ⟨fun due due' limit => ?_, fun due limit event hevent address houtcome => ?_, ?_⟩
  · exact (history_of_serves hdomain due limit hm).1.trans (history_of_serves hdomain due' limit hm).1.symm
  · have hfault := (history_of_serves hdomain due limit hm).2 event hevent _ houtcome
    cases hfault
  · have hnewly := (of_new hnew).1
    have hsettings : m₀.settings = settings := by
      exact (programRules.start _ _ _ trivial hstart).2.1.2.trans hnewly
    have hfirst : regularly settings settings.maxSteps = false := by simp [regularly]
    have hrun := explore_eq_history settings.maxSteps (s := s) hsettings (Nat.le_refl _)
    rw [hfirst, sweepIf_false] at hrun
    rw [← hrun, runAll, hstart]
    dsimp only
    rw [hsettings, hnewly]
    rfl

/-- Sweeping continuations is not seen in any domain. -/
theorem sweeping_unseen {p : Program} {settings : Settings} (hkonts : settings.konts = .concrete) :
    SweepsUnseen Int Double p settings ∧ SweepsUnseen Sign Sign p settings ∧
      SweepsUnseen Bounded Sign p settings :=
  ⟨sweepsUnseen Exact.admits hkonts, sweepsUnseen Sign.admits hkonts, sweepsUnseen Bounded.admits hkonts⟩

/-- A function with a team of its own is called twice. -/
def calledTeams : Program := Builder.program do
  let region ← Builder.parallel [] [← Builder.empty]
  let callee ← Builder.function "f" .void [] [region]
  let first ← Builder.call "f" []
  let second ← Builder.call "f" []
  return [callee, ← Builder.function "main" .int [] [first, second]]

/-- Sweeping before each step leaves none of the six continuations in the end, and the fifteen
steps are the same. -/
theorem calledTeams_unseen : ({} : Settings).konts = .concrete ∧
    ∃ (m₀ : Machine Int Double) (first : State),
      let s := m₀.opening (({} : Settings).update = .weak) first
      (history (fun _ => true) 100 m₀ s).events.length = 15 ∧
      (history (fun _ => true) 100 m₀ s).machine.konts.size = 0 ∧
      (history (fun _ => false) 100 m₀ s).machine.konts.size = 6 ∧
      (history (fun _ => true) 100 m₀ s).bare = (history (fun _ => false) 100 m₀ s).bare := by
  have hrun : ∃ found ∈ (beginning? calledTeams {} : Option (Machine Int Double × State × Machine Int Double)),
      let s := found.2.2.opening (({} : Settings).update = .weak) found.2.1
      (history (fun _ => true) 100 found.2.2 s).events.length = 15 ∧
      (history (fun _ => true) 100 found.2.2 s).machine.konts.size = 0 ∧
      (history (fun _ => false) 100 found.2.2 s).machine.konts.size = 6 := by decide +kernel
  obtain ⟨⟨m, first, m₀⟩, hbegin, hlength, hswept, hkept⟩ := hrun
  obtain ⟨hnew, hstart⟩ := start_of_beginning hbegin
  obtain ⟨hsame, -⟩ := (sweeping_unseen rfl).1 m m₀ first hnew hstart
  exact ⟨rfl, m₀, first, hlength, hswept, hkept, hsame _ _ 100⟩

/-! ## What de-duplication loses -/

/-- The positions that a run evaluates, in order. -/
def visited (limit : Nat) (m : Machine ι φ) (s : Schedule) : List Control :=
  (history (regularly m.settings) limit m s).events.map (·.task.control)

/-- Settings under which states repeat. -/
def sharing : Settings := { update := .weak, konts := .zeroCfa, frames := .zeroCfa }

/-- Two calls of a function that calls another. The inner call returns through continuations
of one address, and when the second call adds its own there, the states that would return
through it have been seen. -/
def nestedCalls : Program := Builder.program do
  let inner ← Builder.function "f" .void [] [← Builder.empty]
  let outer ← Builder.function "g" .void [] [← Builder.call "f" []]
  let first ← Builder.call "g" []
  let middle ← Builder.empty
  let second ← Builder.call "g" []
  let last ← Builder.empty
  return [inner, outer, ← Builder.function "main" .int [] [first, middle, second, last]]

/-- The last statement of the program is never visited, though without `dedup` it is the
fourteenth that is stepped. -/
theorem nestedCalls_lost : ∃ found ∈ (beginning? nestedCalls sharing :
      Option (Machine Int Double × State × Machine Int Double)),
    found.1.runAll.1 = none ∧
      .stmt 13 3 ∈ found.2.2.visited 14 (found.2.2.opening false found.2.1) ∧
      .stmt 13 3 ∉ found.2.2.visited found.2.2.settings.maxSteps (found.2.2.opening true found.2.1) := by
  decide +kernel

end Machine

end CoreC
