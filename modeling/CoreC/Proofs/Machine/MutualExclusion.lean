import CoreC.Machine.Run
import CoreC.Program.Builder
import CoreC.Proofs.Machine.Accounting

/-! # Barriers and mutual exclusion

Tasks are stepped in any order, and a task that waits for a barrier may go on once the
barrier is clear. As long as no condition forks a task, the count of every barrier is the
number of times that live tasks are still to leave it. So there is at most one task in a
critical section, and no task goes on behind a parallel region before all have left it.
-/

namespace CoreC.Machine

open KontTable List

variable {ι φ : Type} [DecidableEq ι] [BEq φ] [Domain ι φ] [Domain.Productive ι φ]

/-! ## Steps -/

variable {m m' : Machine ι φ}

/-- A step keeps the account, unless it forks a condition. -/
theorem accounted_step {state : State} {rest states : List State}
    (hm : Accounted [] (state :: rest) m) (hstep : step state m = .ok states m')
    (hfork : ∀ node, state.control = .expr node → states.length ≤ 1) :
    Accounted [] (states ++ rest) m' := by
  obtain ⟨forks, hexpr, hgoes⟩ := goes_of_step hm.chained hstep
  refine Accounted.goes hgoes hm fun hforks => ?_
  obtain ⟨node, hcontrol⟩ := hexpr hforks
  exact hfork node hcontrol

theorem accounted_start {p : Program} {settings : Settings} (hkonts : settings.konts = .concrete)
    {first : State} (hnew : Machine.new p settings = .ok m)
    (hstart : start m = .ok first m') : Accounted [] [first] m' := by
  have hempty : Accounted [] [⟨.invoke, 0, halt, 0, none⟩] m := by
    obtain ⟨outline, -, hreturn⟩ := exists_of_bind_ok hnew
    cases hreturn
    exact {
      policy := hkonts
      positive := Nat.lt_succ_self halt
      linked := linked_empty _
      known := by simp [KontAllocator.new]
      pending := by simp [Teams.pending, Teams.new, KontTable.releases, activeChain, halt,
        chainWithin]
      lock := by simp [Teams.pending, Teams.new]
      filled := by
        intro key cell hcell
        simp [Store.new] at hcell }
  obtain ⟨-, hstill, hfirst⟩ := (stillRules m.outline).start _ _ _ ⟨rfl, hempty.filled⟩ hstart
  exact (hempty.still hstill).same_kont hfirst.kont

omit [Domain.Productive ι φ] in
/-- A task that gets to a continuation in waiting mode through returns waits for the
barrier, under the parent of that continuation. -/
theorem invokeWithin_wait {fuel : Nat} {address next : KontAddress} {value : Option (ValueSet ι φ)}
    {state : State} {states : List State} {returns later : List Continuation}
    {kont : Continuation} {barrier : Barrier} (hlinked : m.konts.Linked next)
    (hchain : m.konts.activeChain address = returns ++ kont :: later)
    (hreturns : ∀ kont ∈ returns, ∃ scalar, kont.kind = .ret scalar)
    (hkind : kont.kind = .release barrier .wait)
    (hrun : invokeWithin fuel address value state m = .ok states m') :
    ∃ waiting, states = [waiting] ∧ waiting.barrier = some barrier ∧
      waiting.kont = kont.parent := by
  induction returns generalizing fuel address value state with
  | nil =>
    have haddress : address ≠ halt := by
      rintro rfl
      cases hchain
    obtain ⟨less, found, left, -, hslot, hone⟩ := invokeWithin_eq_ok hlinked haddress hrun
    rw [hlinked.activeChain_eq hslot] at hchain
    obtain ⟨rfl, -⟩ := cons_eq_cons.mp hchain
    unfold invokeOne at hone
    rw [hkind] at hone
    obtain ⟨released, middle, hrelease, hreturn⟩ := bind_eq_ok.mp hone
    obtain ⟨_, _, hleave, hmode⟩ := bind_eq_ok.mp hrelease
    cases hleave
    obtain ⟨_, _, hteam, hwait⟩ := bind_eq_ok.mp hmode
    cases hteam
    cases hwait
    obtain ⟨settled, _, hsettle, hreturn⟩ := bind_eq_ok.mp hreturn
    cases hreturn
    rw [← mapM'_eq_mapM] at hsettle
    obtain ⟨waiting, _, hwaiting, hrest⟩ := bind_eq_ok.mp hsettle
    cases hrest
    obtain ⟨-, -, hsettled⟩ := programRules.settle _ _ _ _ trivial hwaiting
    exact ⟨waiting, rfl, hsettled.barrier, hsettled.kont⟩
  | cons first returns ih =>
    have haddress : address ≠ halt := by
      rintro rfl
      cases hchain
    obtain ⟨less, found, left, -, hslot, hone⟩ := invokeWithin_eq_ok hlinked haddress hrun
    rw [hlinked.activeChain_eq hslot] at hchain
    obtain ⟨rfl, hparent⟩ := cons_eq_cons.mp hchain
    obtain ⟨⟨scalar, hret⟩, hothers⟩ := forall_mem_cons.mp hreturns
    have hlast : found.isLast = false := by simp [Continuation.isLast, hret]
    unfold invokeOne at hone
    rw [hret] at hone
    obtain ⟨converted, middle, hconvert, hreturn⟩ := bind_eq_ok.mp hone
    cases convertReturned_machine hconvert
    obtain ⟨forwarded, _, hforward, hreturn⟩ := bind_eq_ok.mp hreturn
    cases hreturn
    refine ih ?_ hothers hforward
    simpa [hlast] using hparent

end CoreC.Machine

namespace CoreC

variable {ι φ : Type} [DecidableEq ι] [BEq φ] [Domain ι φ]

/-- A machine and the tasks that are not done. -/
structure Config (ι φ : Type) where
  machine : Machine ι φ
  live : List State

namespace Config

/-- The configurations that a program can get to when tasks are stepped in any order, a
waiting task goes on only while its barrier is clear, no step fails, and no condition
forks a task. -/
inductive Reachable (p : Program) (settings : Settings) : Config ι φ → Prop where
  | start {m m' : Machine ι φ} {first : State} (hnew : Machine.new p settings = .ok m)
      (hstart : Machine.start m = .ok first m') : Reachable p settings ⟨m', [first]⟩
  | step {m m' : Machine ι φ} {before after states : List State} {state : State}
      (hreach : Reachable p settings ⟨m, before ++ state :: after⟩) (hawake : state.barrier = none)
      (hstep : Machine.step state m = .ok states m')
      (hfork : ∀ node, state.control = .expr node → states.length ≤ 1) :
      Reachable p settings ⟨m', before ++ states ++ after⟩
  | wake {m : Machine ι φ} {before after : List State} {state : State} {barrier : Barrier}
      (hreach : Reachable p settings ⟨m, before ++ state :: after⟩)
      (hwaits : state.barrier = some barrier) (hclear : m.teams.isClear barrier = true) :
      Reachable p settings ⟨m, before ++ state.awake :: after⟩

/-- The task is still to leave the barrier. -/
def holds (c : Config ι φ) (barrier : Barrier) (state : State) : Bool :=
  (c.machine.konts.activeChain state.kont).any (·.releases barrier)

variable {settings : Settings} {p : Program}

theorem Reachable.accounted [Domain.Productive ι φ]
    (hkonts : settings.konts = .concrete) {c : Config ι φ} (hreach : c.Reachable p settings) :
    Machine.Accounted [] c.live c.machine := by
  induction hreach with
  | start hnew hstart => exact Machine.accounted_start hkonts hnew hstart
  | @step m m' before after states state _ _ hstep hfork ih =>
    refine (Machine.accounted_step (ih.perm List.perm_middle) hstep hfork).perm ?_
    rw [← List.append_assoc]
    exact List.perm_append_comm.append_right after
  | @wake m before after state barrier _ _ _ ih =>
    have hawake : Machine.Accounted [] (state.awake :: (before ++ after)) m :=
      (ih.perm List.perm_middle).same_kont rfl
    exact hawake.perm List.perm_middle.symm

omit [DecidableEq ι] [BEq φ] [Domain ι φ] in
/-- No more tasks hold a barrier than are counted for it. -/
theorem countP_holds_le (c : Config ι φ) (barrier : Barrier) :
    c.live.countP (c.holds barrier) ≤ c.machine.konts.releases barrier c.live := by
  unfold KontTable.releases
  induction c.live with
  | nil => exact Nat.le_refl 0
  | cons state rest ih =>
    rw [List.countP_cons, List.flatMap_cons, List.countP_append]
    have hone : (if c.holds barrier state = true then 1 else 0) ≤
        (c.machine.konts.activeChain state.kont).countP (·.releases barrier) := by
      split
      next hholds => exact List.countP_pos_iff.mpr (List.any_eq_true.mp hholds)
      next => exact Nat.zero_le _
    omega

/-- What the barriers of a configuration guarantee. -/
structure Disciplined (c : Config ι φ) : Prop where
  /-- A barrier counts how often the live tasks are still to leave it. -/
  counted : ∀ barrier, c.machine.teams.pending barrier = c.machine.konts.releases barrier c.live
  /-- The lock is taken at most once. -/
  lock : c.machine.teams.pending .critical ≤ 1
  /-- At most one live task is in a critical section. -/
  exclusive : c.live.countP (c.holds .critical) ≤ 1
  /-- While a barrier is clear, so that a task that waits for it may go on, no live task is
  still to leave it. -/
  joined : ∀ barrier, c.machine.teams.isClear barrier = true → ∀ state ∈ c.live,
    c.holds barrier state = false
  /-- A task that leaves a barrier in waiting mode, be it through returns, waits for it. -/
  waits : ∀ {address value state states m returns later kont barrier},
    c.machine.konts.activeChain address = returns ++ kont :: later →
    (∀ passed ∈ returns, ∃ scalar, passed.kind = .ret scalar) →
    kont.kind = .release barrier .wait →
    Machine.invoke address value state c.machine = .ok states m →
    ∃ waiting, states = [waiting] ∧ waiting.barrier = some barrier ∧ waiting.kont = kont.parent

/-- In whatever order tasks are stepped, barriers count the tasks inside, critical sections
exclude each other, and no task passes the end of a region before the others reach it. -/
theorem barriers_count_and_exclude [Domain.Productive ι φ] {p : Program} {settings : Settings}
    (hkonts : settings.konts = .concrete) {c : Config ι φ} (hreach : c.Reachable p settings) :
    c.Disciplined := by
  have haccounted := hreach.accounted hkonts
  have hcounted (barrier : Barrier) :
      c.machine.teams.pending barrier = c.machine.konts.releases barrier c.live := by
    rw [haccounted.pending, List.count_nil, Nat.zero_add]
  refine ⟨hcounted, haccounted.lock, ?_, fun barrier hclear state hstate => ?_, ?_⟩
  · calc c.live.countP (c.holds .critical)
      _ ≤ c.machine.konts.releases .critical c.live := c.countP_holds_le .critical
      _ = c.machine.teams.pending .critical := (hcounted .critical).symm
      _ ≤ 1 := haccounted.lock
  · have hnone : c.machine.konts.releases barrier c.live = 0 := by
      rw [← hcounted]
      simpa [Teams.isClear] using hclear
    have hchains := List.countP_eq_zero.mp hnone
    refine List.any_eq_false.mpr fun kont hkont => hchains kont ?_
    exact List.mem_flatMap.mpr ⟨state, hstate, hkont⟩
  · intro address value state states m returns later kont barrier hchain hreturns hkind hrun
    obtain ⟨seen, _, hget, hinvoke⟩ := bind_eq_ok.mp hrun
    cases hget
    exact Machine.invokeWithin_wait haccounted.linked hchain hreturns hkind hinvoke

/-! ## A run with a contended lock -/

/-- The configuration after one live task, given by its place, was stepped or woken. -/
def move? (c : Config ι φ) (place : Nat) : Option (Config ι φ) := do
  let state ← c.live[place]?
  match state.barrier with
  | some barrier =>
    if c.machine.teams.isClear barrier then
      return ⟨c.machine, c.live.take place ++ state.awake :: c.live.drop (place + 1)⟩
    else none
  | none =>
    match Machine.step state c.machine, state.control with
    | .ok states m, .expr _ =>
      if states.length ≤ 1 then
        return ⟨m, c.live.take place ++ states ++ c.live.drop (place + 1)⟩
      else none
    | .ok states m, _ => return ⟨m, c.live.take place ++ states ++ c.live.drop (place + 1)⟩
    | .error .., _ => none

/-- The configuration that some moves lead to from the start. -/
def follow? (p : Program) (settings : Settings) (places : List Nat) : Option (Config ι φ) :=
  match (Machine.new p settings : Except Fault (Machine ι φ)) with
  | .error _ => none
  | .ok m =>
    match Machine.start m with
    | .error .. => none
    | .ok first m => places.foldlM move? ⟨m, [first]⟩

theorem Reachable.move {c c' : Config ι φ}
    (hreach : c.Reachable p settings) {place : Nat} (hmove : c.move? place = some c') :
    c'.Reachable p settings := by
  obtain ⟨m, live⟩ := c
  obtain ⟨state, hstate, hmove⟩ := Option.bind_eq_some_iff.mp hmove
  obtain ⟨hplace, rfl⟩ := getElem?_eq_some_iff.mp hstate
  have hsplit : live = live.take place ++ live[place] :: live.drop (place + 1) := by
    rw [← List.drop_eq_getElem_cons hplace, List.take_append_drop]
  have hlive : (⟨m, live.take place ++ live[place] :: live.drop (place + 1)⟩ :
      Config ι φ).Reachable p settings := hsplit ▸ hreach
  dsimp only at hmove
  split at hmove
  next barrier hwaits =>
    split at hmove <;> cases hmove
    next hclear => exact .wake hlive hwaits hclear
  next hawake =>
    split at hmove
    next states m' node hstep hcontrol =>
      split at hmove <;> cases hmove
      next hlength => exact .step hlive hawake hstep fun _ _ => hlength
    next states m' control hstep hexpr =>
      cases hmove
      exact .step hlive hawake hstep fun node hcontrol => absurd hcontrol (hexpr node)
    next => cases hmove

theorem reachable_follow {places : List Nat} {c : Config ι φ}
    (hfollow : follow? p settings places = some c) : c.Reachable p settings := by
  unfold follow? at hfollow
  split at hfollow
  · cases hfollow
  next m hnew =>
    split at hfollow
    · cases hfollow
    next first m' hstart =>
      have hmoves (places : List Nat) c₀ (hreach : c₀.Reachable p settings)
          (hfollow : places.foldlM move? c₀ = some c) : c.Reachable p settings := by
        induction places generalizing c₀ with
        | nil =>
          cases hfollow
          exact hreach
        | cons place places ih =>
          obtain ⟨c₁, hmove, hrest⟩ := Option.bind_eq_some_iff.mp hfollow
          exact ih c₁ (hreach.move hmove) hrest
      exact hmoves places _ (.start hnew hstart) hfollow

/-- Two threads that both get to a critical section. -/
def guardedTeam : Program := Builder.program do
  let inside ← Builder.empty
  let guarded ← Builder.critical [inside]
  let region ← Builder.parallel [] [guarded]
  return [← Builder.function "main" .int [] [region]]

/-- One thread is inside, the other waits for the lock, and both are still to leave the
region. -/
theorem guardedTeam_disciplined : ∃ c : Config Int Double, c.Reachable guardedTeam {} ∧
      c.live.map (c.holds .critical) = [true, false] ∧
      c.live.map (c.holds (.construct 4)) = [true, true] ∧
      c.live.map (·.barrier) = [none, some .critical] ∧ c.Disciplined := by
  have hrun : (follow? guardedTeam {} [0, 0, 1] : Option (Config Int Double)).map (fun c =>
      (c.live.map (c.holds .critical), c.live.map (c.holds (.construct 4)), c.live.map (·.barrier))) =
      some ([true, false], [true, true], [none, some .critical]) := by decide +kernel
  obtain ⟨c, hfollow, hc⟩ := Option.map_eq_some_iff.mp hrun
  simp only [Prod.mk.injEq] at hc
  have hreach := reachable_follow hfollow
  exact ⟨c, hreach, hc.1, hc.2.1, hc.2.2, barriers_count_and_exclude rfl hreach⟩

end Config

end CoreC
