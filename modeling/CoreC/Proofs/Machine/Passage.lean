import CoreC.Proofs.Kont.Sweep
import CoreC.Proofs.Machine.Accounting
import CoreC.Proofs.Machine.Tandem

/-! # Passages

A step takes a task to others: it goes on under the same continuation, under a new one on top of
it, or under one that it leads to; and where it waits it met a construct or is behind one. A
passage relates two machines that differ only in the continuations stored, while tasks have
certain stances. If it survives storing continuations, waiting and going back to what is stored,
then it survives every step: the same tasks come of the step in both machines, and their stances
are among those for which the machines are related.
-/

namespace CoreC

open List KontTable

/-- The barrier of a construct. -/
def Construct.barrier? (node : NodeId) : Construct → Option Barrier
  | .parallel .. | .parallelFor .. => some (.construct node)
  | .critical .. => some .critical
  | _ => none

/-- The barrier of the construct in front of a task. -/
def State.faces? (p : Program) (state : State) : Option Barrier := do
  let stmt ← state.control.stmt? p
  let construct ← p.construct? stmt
  construct.barrier? stmt

namespace Machine

variable {ι φ α : Type}

/-- A relation of machines, and the stances that tasks may have in both. -/
structure Passage (ι φ : Type) where
  Related : Machine ι φ → Machine ι φ → Prop
  Stands : KontTable → KontTable → Stance → Prop
  /-- A task that goes on there may meet the construct. -/
  Meets : KontAddress → Barrier → Prop
  about : AboutKonts Related
  policy : ∀ {m m'}, Related m m' → m.allocator.policy = .concrete
  wait : ∀ {m m' kont barrier}, Related m m' → Stands m.konts m'.konts (kont, none) →
    Meets kont barrier → Stands m.konts m'.konts (kont, some barrier)
  push : ∀ {m m' kont}, Related m m' → Stands m.konts m'.konts (kont.parent, none) →
    (∀ barrier mode, kont.kind = .release barrier mode → Meets kont.parent barrier) →
    Related (m.withKont kont) (m'.withKont kont) ∧
      Stands (m.withKont kont).konts (m'.withKont kont).konts (m.allocator.next, none)
  older : ∀ {m m' stance} (kont : Continuation), Related m m' → Stands m.konts m'.konts stance →
    Stands (m.withKont kont).konts (m'.withKont kont).konts stance
  slot : ∀ {m m' address}, Related m m' → Stands m.konts m'.konts (address, none) → address ≠ halt →
    ∃ kont, m.konts.slots[address]? = some [kont] ∧ m'.konts.slots[address]? = some [kont] ∧
      kont.parent < address ∧ Stands m.konts m'.konts (kont.parent, none) ∧
      Stands m.konts m'.konts (kont.parent, kont.awaits?)

namespace Passage

variable (P : Passage ι φ)

/-- The machines are related, and tasks may have these stances. -/
def Abides (live : List Stance) (m m' : Machine ι φ) : Prop :=
  P.Related m m' ∧ ∀ stance ∈ live, P.Stands m.konts m'.konts stance

section Abides

variable {P} {live live' : List Stance} {m m' : Machine ι φ}

theorem Abides.sub (hm : P.Abides live m m') (hsub : live' ⊆ live) : P.Abides live' m m' :=
  ⟨hm.1, fun stance hstance => hm.2 stance (hsub hstance)⟩

end Abides

theorem about_abides (live : List Stance) : AboutKonts (P.Abides live) where
  apart hm := P.about.apart hm.1
  moves hm huntouched := ⟨P.about.moves hm.1 huntouched, by
    rw [huntouched.konts]
    exact hm.2⟩

variable {kont : Continuation}

/-- Storing a continuation gives the address to go on at. -/
theorem tandem_pushKont {o : Outline} {live : List Stance} (hparent : (kont.parent, none) ∈ live)
    (hmeets : ∀ barrier mode, kont.kind = .release barrier mode → P.Meets kont.parent barrier)
    (thread : ThreadId) :
    Tandem (Pinned o (P.Abides live)) (pushKont kont thread : MachineM ι φ KontAddress)
      (pushKont kont thread) fun address => Pinned o (P.Abides ((address, none) :: live)) := by
  rintro m m' ⟨hm, houtline⟩
  have hallocator : m'.allocator = m.allocator := by rw [P.about.apart hm.1]
  have hpolicy := P.policy hm.1
  obtain ⟨hrelated, haddress⟩ := P.push hm.1 (hm.2 _ hparent) hmeets
  rw [pushKont_of_concrete hpolicy, pushKont_of_concrete (hallocator ▸ hpolicy), hallocator]
  refine .ok ⟨⟨hrelated, forall_mem_cons.mpr ⟨haddress, fun stance hstance => ?_⟩⟩, houtline⟩
  exact P.older kont hm.1 (hm.2 stance hstance)

section Steps

variable [DecidableEq ι] [BEq φ] [Domain ι φ] {o : Outline}
  (hdomain : Domain.Admits ι φ fun fault => fault.isOrdinary = true)

/-! ## Invocations -/

include hdomain

section Forward

variable {S : Machine ι φ → Machine ι φ → Prop} (hS : AboutKonts S) {In : Stance → Prop}
  {forward forward' : KontAddress → Option (ValueSet ι φ) → State → MachineM ι φ (List State)}

include hS

/-- Handing a value to a continuation: a return hands it on, a barrier is left, and otherwise what
goes on under the parent goes on awake. -/
theorem tandem_invokeOne (hawake : In (kont.parent, none))
    (hwaiting : In (kont.parent, kont.awaits?))
    (hforward : ∀ value state, Tandem (Pinned o S) (forward kont.parent value state)
      (forward' kont.parent value state) fun states m m' => Pinned o S m m' ∧ ∀ next ∈ states, In next.stance)
    (value : Option (ValueSet ι φ)) (state : State) (left : List Barrier) :
    Tandem (Pinned o S) (invokeOne forward value state kont left) (invokeOne forward' value state kont left)
      fun result m m' => Pinned o S m m' ∧ ∀ next ∈ result.1, In next.stance := by
  let d := detachedRules o hdomain
  have hvalue : d.Hands value := fun _ _ => trivial
  obtain ⟨kind, control, frame, parent⟩ := kont
  cases kind with
  | ret scalar =>
    refine .after hS (d.convertReturned scalar hvalue) fun converted _ => ?_
    exact .bind (hforward converted _) fun states => .pure fun m m' hm => hm
  | release barrier mode =>
    have hwaiting : In (parent, mode.waits? barrier) := by cases mode <;> exact hwaiting
    refine .after hS (d.release (fun act _ => .onTeams act) state _ barrier mode _) fun released hreleased => ?_
    refine .bind (Detached.tandem (d.mapM released fun next hnext => ?_) hS) fun settled =>
      .pure fun m m' hm => ⟨hm.1, hm.2.2⟩
    refine d.weaken (d.settle next) fun settled hsettled => ?_
    rw [State.stance, hsettled.kont, hsettled.barrier, hreleased.2 next hnext]
    exact hwaiting
  | assign | call | branch | loop =>
    refine (Detached.tandem (d.taskRules.resume (w := ()) hvalue (by simp) (by simp) trivial trivial (d.sound _) left)
      hS).weaken fun result m m' hm => ⟨hm.1, fun next hnext => ?_⟩
    have hnext := (hm.2.1 next hnext).1
    rw [State.stance, hnext.kont, hnext.barrier]
    exact hawake

omit hdomain in
theorem tandem_halt (fuel fuel' : Nat) (value : Option (ValueSet ι φ)) (state : State) :
    Tandem (Pinned o S) (invokeWithin fuel halt value state) (invokeWithin fuel' halt value state)
      fun states m m' => Pinned o S m m' ∧ ∀ next ∈ states, In next.stance := by
  have hnone : Tandem (Pinned o S) (Pure.pure [] : MachineM ι φ (List State)) (Pure.pure [])
      fun states m m' => Pinned o S m m' ∧ ∀ next ∈ states, In next.stance :=
    .pure fun m m' hm => ⟨hm, by simp⟩
  rw [invokeWithin, invokeWithin, if_pos rfl]
  split
  · exact .ite (.after hS (.update (fun _ => ⟨rfl, rfl, rfl⟩) fun _ _ => rfl) fun _ _ => hnone) hnone
  · exact hnone

end Forward

omit hdomain in
/-- An invocation finds the only continuation at its address. -/
theorem invokeWithin_of_slot {m : Machine ι φ} {address : KontAddress}
    (hslot : m.konts.slots[address]? = some [kont]) (hhalt : address ≠ halt) (fuel : Nat)
    (value : Option (ValueSet ι φ)) (state : State) : invokeWithin (fuel + 1) address value state m =
      (do return (← invokeOne (invokeWithin fuel) value state kont []).1 ++ []) m := by
  rw [invokeWithin, if_neg hhalt]
  change (check (m.konts.read address) >>= _) m = _
  rw [KontTable.read, hslot]
  rfl

/-- The machines are related, and store these continuations. -/
def RelatedOn (t t' : KontTable) (m m' : Machine ι φ) : Prop :=
  P.Related m m' ∧ m.konts = t ∧ m'.konts = t'

omit [DecidableEq ι] [BEq φ] [Domain ι φ] hdomain in
theorem about_relatedOn (t t' : KontTable) : AboutKonts (P.RelatedOn t t') where
  apart hm := P.about.apart hm.1
  moves hm huntouched := ⟨P.about.moves hm.1 huntouched, huntouched.konts.trans hm.2.1, hm.2.2⟩

/-- By induction on the returns that may still be passed. In either table a return leads to an
earlier address, so neither runs out. -/
theorem tandem_invokeWithin {t t' : KontTable} (fuel fuel' : Nat) {address : KontAddress}
    (haddress : P.Stands t t' (address, none)) (hfuel : t.below address ≤ fuel)
    (hfuel' : t'.below address ≤ fuel') (value : Option (ValueSet ι φ)) (state : State) :
    Tandem (Pinned o (P.RelatedOn t t')) (invokeWithin fuel address value state)
      (invokeWithin fuel' address value state) fun states m m' =>
        Pinned o (P.RelatedOn t t') m m' ∧ ∀ next ∈ states, P.Stands t t' next.stance := by
  by_cases hhalt : address = halt
  · exact hhalt ▸ tandem_halt (P.about_relatedOn t t') fuel fuel' value state
  · rintro m m' ⟨⟨hm, rfl, rfl⟩, houtline⟩
    obtain ⟨kont, hslot, hslot', hparent, hawake, hwaiting⟩ := P.slot hm haddress hhalt
    -- The addresses below the parent are fewer on both sides, so neither runs out of fuel.
    have hless := below_lt hslot hparent
    have hless' := below_lt hslot' hparent
    cases fuel with
    | zero => omega
    | succ fuel =>
      cases fuel' with
      | zero => omega
      | succ fuel' =>
        rw [invokeWithin_of_slot hslot hhalt, invokeWithin_of_slot hslot' hhalt]
        have hforward value state :=
          tandem_invokeWithin fuel fuel' hawake (by omega) (by omega) value state
        refine Tandem.bind (tandem_invokeOne hdomain (P.about_relatedOn _ _) hawake hwaiting hforward value
          state []) (fun result => .pure fun n n' hn => ?_) m m' ⟨⟨hm, rfl, rfl⟩, houtline⟩
        simpa using hn
termination_by fuel

/-! ## Steps -/

omit P in
theorem detachedRules_onTeams (act : Teams → α × Teams) :
    (detachedRules (ι := ι) (φ := φ) o hdomain).Permits (onTeams act) := .onTeams act

/-- Tasks have the stances for which the machines are related; more of them may be taken in. -/
def passing (o : Outline) : TaskRules ι φ where
  rules := (detachedRules o hdomain).toDeclarationRules
  World := List Stance
  Later := Subset
  Runs live Q act := Tandem (Pinned o (P.Abides live)) act act fun a m m' =>
    ∃ live', live ⊆ live' ∧ Q live' a ∧ Pinned o (P.Abides live') m m'
  Stands live state := state.stance ∈ live
  Ready live _ kont _ waits := (kont, waits) ∈ live
  later := ⟨Subset.refl, Subset.trans⟩
  pure ha := .pure fun _ _ hm => ⟨_, Subset.refl _, ha, hm⟩
  throw hfault m m' hm := by
    rw [(P.about_abides _).apart hm.1]
    exact .error hfault
  bind hact hnext := .bind hact fun b m m' ⟨live, hlater, hb, hm⟩ => by
    refine (hnext live b hlater hb m m' hm).weaken fun a n n' ⟨live', hlater', ha, hn⟩ => ?_
    exact ⟨live', Subset.trans hlater hlater', ha, hn⟩
  view hsame hnext m m' hm := .view ((P.about_abides _).apart hm.1) (fun _ _ => hsame) (hnext m hm.2 m m' hm)
  inner hact := (Detached.tandem hact (P.about_abides _)).weaken fun _ _ _ hm => ⟨_, Subset.refl _, hm.2, hm.1⟩
  lasts hlater hstate := hlater hstate
  remains hlater hready := hlater hready
  stands hready _ _ := hready
  found hready _ := hready
  frameFor _ start block keep := (Detached.tandem ((detachedRules o hdomain).frameFor start block keep)
    (P.about_abides _)).weaken fun _ _ _ hm => ⟨_, Subset.refl _, trivial, hm.1⟩

variable {live : List Stance} {state : State}

theorem runs_pushKont (hparent : (kont.parent, none) ∈ live)
    (hmeets : ∀ barrier mode, kont.kind = .release barrier mode → P.Meets kont.parent barrier) (thread : ThreadId) :
    (P.passing hdomain o).Runs live (fun live address => (P.passing hdomain o).Ready live kont.frame address thread none)
      (pushKont kont thread) :=
  (P.tandem_pushKont hparent hmeets thread).weaken fun _ _ _ hm =>
    ⟨_, subset_cons_self _ _, mem_cons_self, hm⟩

theorem runs_startBlock {task : BlockTask} (hready : (state.kont, none) ∈ live)
    (hmeets : P.Meets state.kont task.barrier) :
    (P.passing hdomain o).Runs live (fun live worker => worker.thread = task.thread ∧
      (P.passing hdomain o).Stands live worker ∧ True) (startBlock state task) := by
  let R := P.passing hdomain o
  let d := detachedRules o hdomain
  have hready : R.Ready live state.frame state.kont task.thread none := hready
  refine R.after R.remains hready (detachedRules_onTeams hdomain _) fun live _ hready _ => ?_
  refine R.after R.remains hready (d.newFrame task.block (some state.frame)) fun live frame hready _ => ?_
  refine R.after R.remains hready (d.forEach _ fun entry => d.privatize _ _ entry.1 entry.2) fun live _ hready _ => ?_
  refine R.bind (P.runs_pushKont hdomain hready (fun _ _ hkind => ?_) task.thread) fun live kont _ hkont => ?_
  · cases hkind
    exact hmeets
  · refine R.view rfl fun m _ => ?_
    refine R.after R.remains hkont (d.checked (Control.raises_enter hdomain.covers _ _)) fun live control hkont _ => ?_
    exact R.pure ⟨rfl, hkont, trivial⟩

/-- A task that meets a construct may come to wait for it. -/
theorem runs_wait (hstate : (state.kont, none) ∈ live) {barrier : Barrier} (hmeets : P.Meets state.kont barrier) :
    (P.passing hdomain o).Runs live (fun live _ => (P.passing hdomain o).Stands live (state.waitingOn barrier))
      (Pure.pure PUnit.unit) :=
  .pure fun _ _ hm => ⟨_, subset_cons_self _ _, mem_cons_self,
    ⟨hm.1.1, forall_mem_cons.mpr ⟨P.wait hm.1.1 (hm.1.2 _ hstate) hmeets, hm.1.2⟩⟩, hm.2⟩

/-- Every operation of a step goes on under continuations for which the machines are related. -/
def passes (o : Outline) : TaskStepRules ι φ where
  toTaskRules := P.passing hdomain o
  At state stmt := ∀ construct barrier, o.program.construct? stmt = some construct →
    construct.barrier? stmt = some barrier → P.Meets state.kont barrier
  ready hstate := hstate
  teams act _ := detachedRules_onTeams hdomain act
  push hready _ _ hplain := P.runs_pushKont hdomain hready (fun _ _ hkind => absurd hkind (hplain _ _)) _
  call args hready _ := (P.passing hdomain o).weaken
    ((P.passing hdomain o).inner ((detachedRules o hdomain).callFunction _ _ args _)) fun _ called hlater hcalled => by
      refine ⟨hcalled.thread, ?_⟩
      change (called.kont, called.barrier) ∈ _
      rw [hcalled.kont, hcalled.barrier]
      exact hlater hready
  newThread hstate := (P.passing hdomain o).weaken ((P.passing hdomain o).inner (detachedRules_onTeams hdomain _))
    fun _ _ hlater _ => ⟨nofun, hlater hstate⟩
  start {_ _ _ _ task} hat hshows hof _ hready := by
    have hconstruct := (detachedRules o hdomain).construct_of_shows (fun _ hm => hm) hshows
    exact P.runs_startBlock hdomain hready (hat _ task.barrier hconstruct (by cases hof <;> rfl))
  counter type _ _ := (P.passing hdomain o).inner ((detachedRules o hdomain).declareLocal _ _ type)
  behind hat hshows _ _ hstate := by
    have hconstruct := (detachedRules o hdomain).construct_of_shows (fun _ hm => hm) hshows
    refine (P.passing hdomain o).weaken (P.runs_wait hdomain hstate
      (hat _ _ hconstruct rfl)) fun _ _ hlater hwaits => ?_
    split
    · exact hlater hstate
    · exact hwaits
  wait hat hshows hstate := P.runs_wait hdomain hstate
    (hat _ _ ((detachedRules o hdomain).construct_of_shows (fun _ hm => hm) hshows) rfl)

theorem runs_invoke (hready : (state.kont, none) ∈ live) (value : Option (ValueSet ι φ)) :
    (P.passes hdomain o).Runs live ((P.passes hdomain o).Succeeds state.thread) (invoke state.kont value state) := by
  rintro m m' ⟨hm, houtline⟩
  have hfuel := Nat.le_succ_of_le (m.konts.below_le_size state.kont)
  have hfuel' := Nat.le_succ_of_le (m'.konts.below_le_size state.kont)
  have hinvoke := P.tandem_invokeWithin (o := o) hdomain _ _ (hm.2 _ hready) hfuel hfuel' value state
  refine (hinvoke.weaken fun states n n' hn => ?_) m m' ⟨⟨hm.1, rfl, rfl⟩, houtline⟩
  obtain ⟨⟨⟨hrelated, hkonts, hkonts'⟩, houtline⟩, hstates⟩ := hn
  refine ⟨states.map State.stance ++ live, subset_append_right _ _, ⟨nofun, fun next hnext => ?_⟩, ⟨hrelated, ?_⟩,
    houtline⟩
  · exact mem_append_left _ (mem_map_of_mem hnext)
  · rw [hkonts, hkonts']
    refine forall_mem_append.mpr ⟨fun stance hstance => ?_, hm.2⟩
    obtain ⟨next, hnext, rfl⟩ := mem_map.mp hstance
    exact hstates next hnext

/-- From related machines a step leads to the same tasks, which stand in both machines, or to the
same fault, which is one of the program. -/
theorem matches_step (hstate : (state.kont, none) ∈ live) {m m' : Machine ι φ} (hm : P.Abides live m m')
    (hmeets : ∀ barrier, state.faces? m.program = some barrier → P.Meets state.kont barrier) :
    Matches (fun states => P.Abides (states.map State.stance ++ live)) (step state m) (step state m') := by
  let R := P.passes hdomain m.outline
  have hstep : R.Runs live (R.Succeeds state.thread) (step state) := by
    refine TaskStepRules.step (fun _ hready => P.runs_invoke hdomain hready _) hstate ?_
    intro seen block index stmt hseen hcontrol hstmt construct barrier hconstruct hbarrier
    rw [program, show seen.outline = m.outline from hseen] at hstmt
    refine hmeets barrier ?_
    rw [State.faces?, program, hstmt]
    simp [hconstruct, hbarrier]
  refine (hstep m m' ⟨hm, rfl⟩).weaken fun states n n' ⟨live', hlater, hstates, hn⟩ => hn.1.sub ?_
  refine append_subset.mpr ⟨fun stance hstance => ?_, hlater⟩
  obtain ⟨next, hnext, rfl⟩ := mem_map.mp hstance
  exact hstates.2 next hnext

end Steps

end Passage

/-! ## Machines with fewer continuations -/

/-- The second machine stores no more than the first, and with each continuation all that it
leads to. -/
structure Trimmed (m m' : Machine ι φ) : Prop where
  apart : m' = { m with konts := m'.konts }
  policy : m.allocator.policy = .concrete
  positive : halt < m.allocator.next
  linked : m.konts.Linked m.allocator.next
  within : m'.konts.Within m.konts
  closed : m'.konts.Closed

theorem Trimmed.push {m m' : Machine ι φ} (hm : Trimmed m m') {kont : Continuation}
    (hparent : m'.konts.Holds kont.parent) : Trimmed (m.withKont kont) (m'.withKont kont) where
  apart := by rw [hm.apart]; rfl
  policy := hm.policy
  positive := Nat.lt_succ_of_lt hm.positive
  linked := hm.linked.write ((hparent.within hm.within).lt hm.linked hm.positive)
  within := by
    rw [hm.apart]
    exact hm.within.write_both _ _
  closed := hm.closed.write hparent _

theorem Trimmed.slot {m m' : Machine ι φ} (hm : Trimmed m m') {address : KontAddress}
    (haddress : m'.konts.Holds address) (hhalt : address ≠ halt) : ∃ kont,
      m.konts.slots[address]? = some [kont] ∧ m'.konts.slots[address]? = some [kont] ∧
      kont.parent < address ∧ m'.konts.Holds kont.parent := by
  obtain ⟨konts, hslot'⟩ := haddress.resolve_left hhalt
  have hslot := hm.within _ _ hslot'
  obtain ⟨kont, rfl, hparent, -⟩ := hm.linked.slot hslot
  exact ⟨kont, hslot, hslot', hparent, hm.closed address [kont] hslot' kont mem_cons_self⟩

theorem about_trimmed : AboutKonts (Trimmed (ι := ι) (φ := φ)) where
  apart hm := hm.apart
  moves hm huntouched := {
    apart := rfl
    policy := huntouched.allocator ▸ hm.policy
    positive := huntouched.allocator ▸ hm.positive
    linked := by
      rw [huntouched.konts, huntouched.allocator]
      exact hm.linked
    within := huntouched.konts ▸ hm.within
    closed := hm.closed }

/-- Tasks go on where all is still there. -/
def trimming : Passage ι φ where
  Related := Trimmed
  Stands _ t' stance := t'.Holds stance.1
  Meets _ _ := True
  about := about_trimmed
  policy hm := hm.policy
  wait _ hkont _ := hkont
  push hm hparent _ := ⟨hm.push hparent, by
    rw [hm.apart]
    exact holds_written _ _ _⟩
  older _ _ hheld := hheld.write _ _
  slot hm haddress hhalt := by
    obtain ⟨kont, hslot, hslot', hparent, hheld⟩ := hm.slot haddress hhalt
    exact ⟨kont, hslot, hslot', hparent, hheld, hheld⟩

end Machine

end CoreC
