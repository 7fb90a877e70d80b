import CoreC.Proofs.Machine.MutualExclusion
import CoreC.Proofs.Machine.Sweeping
import CoreC.Proofs.Program.Tree
import Mathlib.Data.Set.Finite.Basic
import Mathlib.Order.WellFounded

/-! # Deadlock

A task that waits for a construct waits for all tasks that are inside of it, and these may in
turn wait for constructs that they met there. The barrier of a construct is one for all tasks
that ever meet it. So waiting tasks can only wait for each other if constructs were met inside
each other in a circle, such as a construct that was met inside of itself.
-/

namespace CoreC

open Builder Machine Schedule List Relation Option KontTable Continuation Domain Program

variable {state first : State} {settings : Settings} {t : KontTable} {address : KontAddress}

/-- If all of finitely many things lead to others of them, some lead to themselves. -/
theorem exists_transGen_self {α : Type} {R : α → α → Prop} (items : List α) (hsome : items ≠ [])
    (hnext : ∀ a ∈ items, ∃ b ∈ items, R a b) : ∃ a, TransGen R a a := by
  by_contra hnone
  rw [not_exists] at hnone
  let After (a b : {a // a ∈ items}) : Prop := TransGen R b.1 a.1
  have hfinite : Finite {a // a ∈ items} := items.finite_toSet
  have htrans : IsTrans _ After := ⟨fun _ _ _ hab hbc => hbc.trans hab⟩
  have hirrefl : Std.Irrefl After := ⟨fun a => hnone a.1⟩
  obtain ⟨first, hfirst⟩ := exists_mem_of_ne_nil items hsome
  obtain ⟨last, -, hlast⟩ := (Finite.wellFounded_of_trans_of_irrefl After).has_min Set.univ
    ⟨⟨first, hfirst⟩, trivial⟩
  obtain ⟨next, hmem, hR⟩ := hnext last.1 last.2
  exact hlast ⟨next, hmem⟩ trivial (.single hR)

/-! ## What a task is inside of -/

/-- The construct that a barrier is of. -/
def Barrier.construct? : Barrier → Option NodeId
  | .construct node => some node
  | .critical => none

/-- The construct that a task leaves at the continuation. -/
def Continuation.leaves? (kont : Continuation) : Option NodeId :=
  match kont.kind with
  | .release barrier _ => barrier.construct?
  | _ => none

variable {kont : Continuation}

theorem Continuation.leaves?_of_releases {node : NodeId}
    (hreleases : kont.releases (.construct node) = true) : kont.leaves? = some node := by
  have hkind : ∃ mode, kont.kind = .release (.construct node) mode := by
    unfold releases at hreleases
    split at hreleases
    next other mode hkind => exact ⟨mode, of_decide_eq_true hreleases ▸ hkind⟩
    next => cases hreleases
  obtain ⟨mode, hkind⟩ := hkind
  simp [leaves?, hkind, Barrier.construct?]

variable {barrier : Barrier}

theorem Continuation.awaits?_eq_some :
    kont.awaits? = some barrier ↔ kont.kind = .release barrier .wait := by
  unfold awaits?
  split <;> simp_all

namespace KontTable

/-- The constructs that a task is inside of, the innermost first. -/
def around (t : KontTable) (address : KontAddress) : List NodeId :=
  (t.activeChain address).filterMap (·.leaves?)

theorem Linked.around_write {next : KontAddress} (hlinked : t.Linked next) (kont : Continuation)
    (haddress : address < next) : (t.write next kont false).around address = t.around address := by
  rw [around, hlinked.activeChain_write kont haddress, around]

/-- What a barrier counts is around some task. -/
theorem exists_around_of_releases {node : NodeId} {live : List State}
    (hreleases : t.releases (.construct node) live ≠ 0) :
    ∃ state ∈ live, node ∈ t.around state.kont := by
  obtain ⟨kont, hkont, hreleased⟩ := countP_pos_iff.mp (Nat.pos_of_ne_zero hreleases)
  obtain ⟨state, hstate, hchain⟩ := mem_flatMap.mp hkont
  exact ⟨state, hstate, mem_filterMap.mpr ⟨kont, hchain, leaves?_of_releases hreleased⟩⟩

/-- The barrier is of a construct that is nested in all that a task is inside of. -/
def Encloses (Nests : NodeId → NodeId → Prop) (t : KontTable) (address : KontAddress) (barrier : Barrier) :
    Prop :=
  ∃ inner, barrier = .construct inner ∧ ∀ outer ∈ t.around address, Nests outer inner

end KontTable

namespace Machine

variable {ι φ : Type} {Nests : NodeId → NodeId → Prop} {p : Program}

/-! ## Steps -/

/-- Wherever a task will wait behind a continuation, it will wait for a construct that is nested
in all that it is still inside of. -/
structure Nested (Nests : NodeId → NodeId → Prop) (p : Program) (m : Machine ι φ) : Prop where
  program : m.program = p
  whole : Trimmed m m
  waits : ∀ {address : KontAddress} {kont : Continuation} {barrier : Barrier},
    m.konts.slots[address]? = some [kont] → kont.awaits? = some barrier →
      m.konts.Encloses Nests kont.parent barrier

/-- Machines that a step may get to from a given one. -/
structure Joins (Nests : NodeId → NodeId → Prop) (p : Program) (m₀ m : Machine ι φ) : Prop
    extends Nested Nests p m where
  later : m₀.allocator.next ≤ m.allocator.next
  around : ∀ address < m₀.allocator.next, m.konts.around address = m₀.konts.around address

theorem Joins.moves {m₀ m n : Machine ι φ} (hm : Joins Nests p m₀ m) (huntouched : Untouched m n) :
    Joins Nests p m₀ n where
  program := by
    rw [← hm.program]
    exact congrArg Outline.program huntouched.outline
  whole := by
    have hwhole := about_trimmed.moves hm.whole huntouched
    rwa [← huntouched.konts] at hwhole
  waits := by
    rw [huntouched.konts]
    exact hm.waits
  later := huntouched.allocator ▸ hm.later
  around := huntouched.konts ▸ hm.around

theorem Joins.push {m₀ m : Machine ι φ} (hm : Joins Nests p m₀ m)
    (hparent : m.konts.Holds kont.parent)
    (hmeets : ∀ barrier, kont.awaits? = some barrier → m.konts.Encloses Nests kont.parent barrier) :
    Joins Nests p m₀ (m.withKont kont) where
  program := hm.program
  whole := hm.whole.push hparent
  waits {address stored barrier} hslot hwaits := by
    have hlinked := hm.whole.linked
    change (m.konts.write m.allocator.next kont false).slots[address]? = some [stored] at hslot
    change (m.konts.write m.allocator.next kont false).Encloses Nests stored.parent barrier
    rw [getElem?_write] at hslot
    unfold KontTable.Encloses
    split at hslot
    next =>
      cases hslot
      rw [hlinked.around_write kont (hparent.lt hlinked hm.whole.positive)]
      exact hmeets barrier hwaits
    next =>
      obtain ⟨_, heq, hbelow, haddress⟩ := hlinked.slot hslot
      cases heq
      rw [hlinked.around_write kont (Nat.lt_trans hbelow haddress)]
      exact hm.waits hslot hwaits
  later := Nat.le_succ_of_le hm.later
  around address haddress :=
    (hm.whole.linked.around_write kont (Nat.lt_of_lt_of_le haddress hm.later)).trans (hm.around address haddress)

theorem Joins.encloses {m₀ m : Machine ι φ} (hm : Joins Nests p m₀ m)
    (haddress : address < m₀.allocator.next) (hencloses : m₀.konts.Encloses Nests address barrier) :
    m.konts.Encloses Nests address barrier := by
  unfold KontTable.Encloses
  rw [hm.around address haddress]
  exact hencloses

/-- Where a task may be: if it waits, then for a construct nested in all that it is inside of. -/
def Stationed (Nests : NodeId → NodeId → Prop) (t : KontTable) (stance : Stance) : Prop :=
  t.Holds stance.1 ∧ ∀ barrier, stance.2 = some barrier → t.Encloses Nests stance.1 barrier

/-- Tasks meet constructs where the nesting says so, and wait for them there or behind what they
are inside of. -/
def joining (Nests : NodeId → NodeId → Prop) (p : Program) (m₀ : Machine ι φ) : Passage ι φ where
  Related m m' := m' = m ∧ Joins Nests p m₀ m
  Stands t _ stance := Stationed Nests t stance
  Meets address barrier := address < m₀.allocator.next ∧ m₀.konts.Encloses Nests address barrier
  about := {
    apart := fun hm => by
      obtain ⟨rfl, -⟩ := hm
      rfl
    moves := fun {m m' n} hm huntouched => by
      obtain ⟨rfl, hjoins⟩ := hm
      refine ⟨?_, hjoins.moves huntouched⟩
      rw [← huntouched.konts] }
  policy hm := hm.2.whole.policy
  wait hm hkont hmeets := by
    refine ⟨hkont.1, fun barrier hbarrier => ?_⟩
    cases hbarrier
    exact hm.2.encloses hmeets.1 hmeets.2
  push {m m' kont} hm hparent hmeets := by
    obtain ⟨rfl, hjoins⟩ := hm
    refine ⟨⟨rfl, hjoins.push hparent.1 fun barrier hwaits => ?_⟩, holds_written _ _ _, by simp⟩
    obtain ⟨habove, hencloses⟩ := hmeets barrier .wait (awaits?_eq_some.mp hwaits)
    exact hjoins.encloses habove hencloses
  older {m m' stance} kont hm hstands := by
    refine ⟨hstands.1.write _ _, fun barrier hbarrier => ?_⟩
    have hlinked := hm.2.whole.linked
    change ∃ inner, _ ∧ ∀ outer ∈ (m.konts.write m.allocator.next kont false).around stance.1, _
    rw [hlinked.around_write kont (hstands.1.lt hlinked hm.2.whole.positive)]
    exact hstands.2 barrier hbarrier
  slot {m m' address} hm hstands hhalt := by
    obtain ⟨rfl, hjoins⟩ := hm
    obtain ⟨kont, hslot, -, hparent, hheld⟩ := hjoins.whole.slot hstands.1 hhalt
    exact ⟨kont, hslot, hslot, hparent, ⟨hheld, by simp⟩, hheld, fun _ hwaits => hjoins.waits hslot hwaits⟩

/-! ## Runs -/

/-- Barriers count the pending tasks that are still to leave them, and those of these tasks that
wait met their construct inside all that they are inside of. -/
structure Orderly (Nests : NodeId → NodeId → Prop) (p : Program) (s : Schedule) (m : Machine ι φ) : Prop where
  nested : Nested Nests p m
  counted : Accounted [] s.pending m
  stationed : s.AllPending fun state => Stationed Nests m.konts state.stance
  dedup : s.dedup = false

variable {m : Machine ι φ} {s : Schedule}

/-- A task that waits waits for a construct, inside of which there is a pending task. -/
theorem Orderly.awaited (hs : Orderly Nests p s m) (hstate : state ∈ s.pending)
    (hwait : mustWait m.teams state = true) :
    ∃ inner, state.barrier = some (.construct inner) ∧
      (∀ outer ∈ m.konts.around state.kont, Nests outer inner) ∧
        ∃ other ∈ s.pending, inner ∈ m.konts.around other.kont := by
  unfold mustWait at hwait
  split at hwait
  next barrier hbarrier =>
    obtain ⟨inner, rfl, hnests⟩ := (hs.stationed state hstate).2 barrier hbarrier
    refine ⟨inner, hbarrier, hnests, exists_around_of_releases fun hnone => ?_⟩
    simp [Teams.isClear, hs.counted.pending, hnone] at hwait
  next => cases hwait

/-- Only a circle of constructs keeps all tasks waiting. -/
theorem Orderly.exists_circle (hs : Orderly Nests p s m) {fault : Fault}
    (hnext : s.next m.teams = .error fault) : ∃ node, TransGen Nests node node := by
  obtain ⟨-, hready, hsome, hwaits⟩ := next_eq_error_iff.mp hnext
  have hpending : s.blocked.toList = s.pending := by simp [pending, hready]
  rw [hpending] at hsome hwaits
  let awaited? (state : State) : Option NodeId := state.barrier.bind Barrier.construct?
  have hmem {state : State} (hstate : state ∈ s.pending) {inner : NodeId}
      (hbarrier : state.barrier = some (.construct inner)) : inner ∈ s.pending.filterMap awaited? :=
    mem_filterMap.mpr ⟨state, hstate, by simp [awaited?, hbarrier, Barrier.construct?]⟩
  refine exists_transGen_self (s.pending.filterMap awaited?) ?_ fun inner hinner => ?_
  · obtain ⟨state, hstate⟩ := exists_mem_of_ne_nil _ hsome
    obtain ⟨inner, hbarrier, -⟩ := hs.awaited hstate (hwaits state hstate)
    exact ne_nil_of_mem (hmem hstate hbarrier)
  · obtain ⟨state, hstate, hinner⟩ := mem_filterMap.mp hinner
    obtain ⟨met, hbarrier, -, other, hother, haround⟩ := hs.awaited hstate (hwaits state hstate)
    obtain rfl : met = inner := by simpa [awaited?, hbarrier, Barrier.construct?] using hinner
    obtain ⟨next, hnext, hnests, -⟩ := hs.awaited hother (hwaits other hother)
    exact ⟨next, hmem hother hnext, hnests met haround⟩

variable [DecidableEq ι] [BEq φ] [Domain ι φ]

/-- A run stays in order when the next task meets a construct inside all that it is inside of, and
no condition forks. -/
theorem Orderly.step [Productive ι φ] (hdomain : Admits ι φ fun fault => fault.isOrdinary = true)
    {s s' : Schedule} {m m' : Machine ι φ} (hs : Orderly Nests p s m) {states : List State}
    (hnext : s.next m.teams = .ok (some state, s'))
    (hmeets : ∀ barrier, state.faces? p = some barrier → m.konts.Encloses Nests state.kont barrier)
    (hstep : step state m = .ok states m')
    (hfork : ∀ node, state.control = .expr node → states.length ≤ 1) :
    Orderly Nests p (s'.addAll m'.teams m'.store.generation states) m' := by
  have hawake (m : Machine ι φ) (state : State) (hstate : Stationed Nests m.konts state.stance) :
      Stationed Nests m.konts state.awake.stance := ⟨hstate.1, by simp [State.stance, State.awake]⟩
  obtain ⟨hpopped, hdedup⟩ := konts_next hnext
  obtain ⟨hadded, hdedup'⟩ := konts_addAll (hdedup.trans hs.dedup) m'.teams m'.store.generation states
  obtain ⟨hstate, hlater⟩ := hs.stationed.next (hawake m) hnext
  have hbelow := hstate.1.lt hs.nested.whole.linked hs.nested.whole.positive
  have habides : (joining Nests p m).Abides ((state.kont, none) :: s'.pending.map State.stance) m m := by
    refine ⟨⟨rfl, { hs.nested with later := Nat.le_refl _, around := fun _ _ => rfl }⟩, ?_⟩
    refine forall_mem_cons.mpr ⟨⟨hstate.1, by simp⟩, fun stance hstance => ?_⟩
    obtain ⟨other, hother, rfl⟩ := mem_map.mp hstance
    exact hlater other hother
  have hmatches := (joining Nests p m).matches_step hdomain mem_cons_self habides
    fun barrier hfaces => ⟨hbelow, hmeets barrier (hs.nested.program ▸ hfaces)⟩
  rw [hstep] at hmatches
  cases hmatches with
  | ok hm' =>
    have hcounted : Accounted [] (state :: s'.pending) m := hs.counted.of_konts hpopped
    refine ⟨hm'.1.2.toNested, ?_, ?_, hdedup'⟩
    · have hstepped := accounted_step hcounted hstep hfork
      refine hstepped.of_konts ?_
      rw [map_append]
      exact hadded.symm
    · refine AllPending.addAll (hawake m') (fun other hother => ?_) fun other hother => ?_
      · exact hm'.2 other.stance (mem_append_right _ (mem_cons_of_mem _ (mem_map_of_mem hother)))
      · exact hm'.2 other.stance (mem_append_left _ (mem_map_of_mem hother))

end Machine

namespace Event

variable {ι φ : Type}

/-- The task met one construct inside of another. -/
def Nests (event : Event ι φ) (outer inner : NodeId) : Prop :=
  event.task.faces? event.before.program = some (.construct inner) ∧
    outer ∈ event.before.konts.around event.task.kont

instance (event : Event ι φ) (outer inner : NodeId) : Decidable (event.Nests outer inner) :=
  inferInstanceAs (Decidable (_ ∧ _))

/-- Whether the task went two ways at a condition. -/
def forks (event : Event ι φ) : Bool :=
  match event.task.control, event.outcome with
  | .expr _, .ok states => 1 < states.length
  | _, _ => false

end Event

def Construct.isCritical : Construct → Bool
  | .critical .. => true
  | _ => false

/-- The program has no critical section. -/
def Program.LockFree (p : Program) : Prop := ∀ node ∈ p.nodes.toList, node.construct.isCritical = false

variable {p : Program}

theorem State.faces_construct (hp : p.LockFree) (hfaces : state.faces? p = some barrier) :
    ∃ node, barrier = .construct node := by
  obtain ⟨stmt, -, hrest⟩ := bind_eq_some_iff.mp hfaces
  obtain ⟨construct, hconstruct, hbarrier⟩ := bind_eq_some_iff.mp hrest
  cases construct with
  | parallel | parallelFor =>
    cases hbarrier
    exact ⟨stmt, rfl⟩
  | critical name block =>
    obtain ⟨node, hnode, hcritical⟩ := map_eq_some_iff.mp hconstruct
    cases hcritical ▸ hp node (Array.mem_toList_iff.mpr (Array.mem_of_getElem? hnode))
  | _ => cases hbarrier

namespace Machine

variable {ι φ : Type} [DecidableEq ι] [BEq φ] [Domain ι φ] [Productive ι φ]
  {Nests : NodeId → NodeId → Prop} {p : Program}

variable (hdomain : Admits ι φ fun fault => fault.isOrdinary = true)

include hdomain

/-- By induction on the steps left. -/
theorem history_not_deadlock
    (hp : p.LockFree) (hcircle : ∀ node, ¬ TransGen Nests node node) (remaining : Nat)
    {m : Machine ι φ} {s : Schedule} (hs : Orderly Nests p s m)
    (hforks : ∀ event ∈ (history (fun _ => false) remaining m s).events, event.forks = false)
    (hnests : ∀ event ∈ (history (fun _ => false) remaining m s).events, ∀ outer inner,
      event.Nests outer inner → Nests outer inner) (blocked : Nat) :
    (history (fun _ => false) remaining m s).fault ≠ some (.deadlock blocked) := by
  induction remaining generalizing m s with
  | zero =>
    unfold history
    dsimp only [sweepIf_false]
    cases hnext : s.next m.teams with
    | error fault => exact absurd (hs.exists_circle hnext) (not_exists.mpr hcircle)
    | ok found => obtain ⟨_ | state, s'⟩ := found <;> simp
  | succ remaining ih =>
    unfold history at hforks hnests ⊢
    dsimp only [sweepIf_false] at hforks hnests ⊢
    cases hnext : s.next m.teams with
    | error fault => exact absurd (hs.exists_circle hnext) (not_exists.mpr hcircle)
    | ok found =>
      rw [hnext] at hforks hnests
      obtain ⟨_ | state, s'⟩ := found
      · simp
      · dsimp only at hforks hnests ⊢
        cases hstep : step state m with
        | error fault m' =>
          have hserves : Serves s m m := ⟨hs.nested.whole, fun state hstate => (hs.stationed state hstate).1⟩
          have hfault := (hserves.matches_step hdomain hnext).isOrdinary hstep
          rintro ⟨⟩
          cases hfault
        | ok states m' =>
          rw [hstep] at hforks hnests
          obtain ⟨hfork, hforks⟩ := forall_mem_cons.mp hforks
          obtain ⟨hnest, hnests⟩ := forall_mem_cons.mp hnests
          have hmeets (barrier : Barrier) (hfaces : state.faces? p = some barrier) :
              m.konts.Encloses Nests state.kont barrier := by
            obtain ⟨inner, rfl⟩ := State.faces_construct hp hfaces
            exact ⟨inner, rfl, fun outer houter => hnest outer inner ⟨hs.nested.program ▸ hfaces, houter⟩⟩
          have hone (node : NodeId) (hcontrol : state.control = .expr node) : states.length ≤ 1 := by
            simpa [Event.forks, hcontrol] using hfork
          exact ih (hs.step hdomain hnext hmeets hstep hone) hforks hnests

/-- A program starts in order. -/
theorem orderly_start
    (hkonts : settings.konts = .concrete) {m m₀ : Machine ι φ} (hnew : new p settings = .ok m)
    (hstart : start m = .ok first m₀) : Orderly Nests p (m₀.opening false first) m₀ := by
  obtain ⟨outline, houtline, hreturn⟩ := exists_of_bind_ok hnew
  obtain ⟨-, hallocator, hempty⟩ := of_new hnew
  have hjoins : Joins Nests p m m := {
    program := by
      cases hreturn
      exact (Outline.tree_ofProgram houtline).2.1
    whole := trimmed_new hkonts hnew
    waits := by simp [hempty, KontTable.empty]
    later := Nat.le_refl _
    around := fun _ _ => rfl }
  have hstarted := Detached.tandem (detachedRules m.outline hdomain).start (joining Nests p m).about m m
    ⟨⟨rfl, hjoins⟩, rfl⟩
  obtain ⟨hadded, hdedup⟩ := konts_add (s := .new false) rfl m₀.teams m₀.store.generation first
  rw [hstart] at hstarted
  cases hstarted with
  | ok hm =>
    have hfirst : first.stance = (halt, none) := Prod.ext hm.2.kont hm.2.barrier
    refine ⟨hm.1.1.2.toNested, (accounted_start hkonts hnew hstart).of_konts hadded.symm, ?_, hdedup⟩
    refine AllPending.add (fun state hstate => ⟨hstate.1, by simp [State.stance, State.awake]⟩)
      (forall_mem_nil _) ?_
    rw [hfirst]
    exact ⟨.inl rfl, by simp⟩

end Machine

/-- The steps of the concrete run of a program, with all continuations that were ever stored. -/
def Program.events (p : Program) (settings : Settings) : List (Event Int Double) :=
  (beginning? p settings).elim [] fun beginning =>
    (history (fun _ => false) settings.maxSteps beginning.2.2
      (beginning.2.2.opening (settings.update = .weak) beginning.2.1)).events

/-- Without critical sections and without forks, a concrete run does not end in deadlock unless
its tasks meet constructs inside each other in a circle. -/
theorem run_not_deadlock {p : Program} {settings : Settings} (hprecision : settings.precision = .concrete)
    (hupdate : settings.update = .strong) (hkonts : settings.konts = .concrete) (hlock : p.LockFree)
    (hforks : ∀ event ∈ p.events settings, event.forks = false)
    (hcircle : ∀ node, ¬ TransGen
      (fun outer inner => ∃ event ∈ p.events settings, event.Nests outer inner) node node) (blocked : Nat) :
    (run p settings).fault ≠ some (.deadlock blocked) := by
  have hordinary {fault : Fault} (hfault : fault.isOrdinary = true) : some fault ≠ some (.deadlock blocked) := by
    rintro ⟨⟩
    cases hfault
  unfold run
  rw [hprecision]
  change (runIn Int Double p settings).fault ≠ _
  unfold runIn
  cases hnew : (new p settings : Except Fault (Machine Int Double)) with
  | error fault =>
    have hraises : Raises (fun fault => fault.isOrdinary = true)
        (new p settings : Except Fault (Machine Int Double)) :=
      .bind (Outline.raises_ofProgram Fault.covers_isOrdinary p) fun _ => .ok _
    exact hordinary (hraises fault hnew)
  | ok m =>
    change m.runAll.1 ≠ _
    cases hstart : start m with
    | error fault m' =>
      have hstarted := Detached.tandem (detachedRules m.outline Exact.admits).start
        about_trimmed m m ⟨trimmed_new hkonts hnew, rfl⟩
      have hfault := hstarted.isOrdinary hstart
      rw [runAll, hstart]
      exact hordinary hfault
    | ok first m₀ =>
      obtain ⟨hsame, -, hrun⟩ := sweepsUnseen Exact.admits hkonts m m₀ first hnew hstart
      have hswept := congrArg History.fault
        (hsame (regularly settings) (fun _ => false) settings.maxSteps)
      simp only [Program.events, beginning?, hnew, hstart] at hforks hcircle
      have hweak : decide (settings.update = .weak) = false := by simp [hupdate]
      rw [hweak] at hforks hcircle hswept hrun
      rw [hrun]
      change (history _ _ _ _).fault ≠ _
      refine fun hdeadlock => history_not_deadlock Exact.admits hlock hcircle settings.maxSteps
        (orderly_start Exact.admits hkonts hnew hstart) hforks
        (fun event hevent outer inner hevents => ⟨event, hevent, hevents⟩) blocked ?_
      exact hswept.symm.trans hdeadlock

/-- A function with a region of its own is called inside of another region. -/
def calledRegion : Program := program do
  let inner ← parallel [] [← empty]
  let callee ← function "f" .void [] [inner]
  let call ← call "f" []
  let outer ← parallel [] [call]
  return [callee, ← function "main" .int [] [outer]]

/-- Both threads of the outer region meet the inner one, and wait there for each other. -/
theorem calledRegion_not_deadlock : calledRegion.LockFree ∧
    (∀ event ∈ calledRegion.events {}, event.forks = false) ∧
    ((calledRegion.events {}).filter fun event => event.Nests 8 2).length = 2 ∧
    ∀ blocked, (run calledRegion {}).fault ≠ some (.deadlock blocked) := by
  have hlock : calledRegion.LockFree := by
    unfold LockFree
    decide +kernel
  have hforks : ∀ event ∈ calledRegion.events {}, event.forks = false := by decide +kernel
  -- What is met is built before what it is met in, so its number is less.
  have hless : ∀ event ∈ calledRegion.events {}, ∀ outer ∈ event.before.konts.around event.task.kont,
      ∀ inner ∈ (event.task.faces? event.before.program).bind Barrier.construct?, inner < outer := by
    decide +kernel
  refine ⟨hlock, hforks, by decide +kernel, run_not_deadlock rfl rfl rfl hlock hforks fun node hcircle => ?_⟩
  have hnests {outer inner : NodeId}
      (hnested : ∃ event ∈ calledRegion.events {}, event.Nests outer inner) : inner < outer := by
    obtain ⟨event, hevent, hfaces, houter⟩ := hnested
    exact hless event hevent outer houter inner (by rw [hfaces]; rfl)
  have hbelow {outer inner : NodeId} (hpath : TransGen
      (fun outer inner => ∃ event ∈ calledRegion.events {}, event.Nests outer inner) outer inner) :
      inner < outer := by
    induction hpath with
    | single hstep => exact hnests hstep
    | tail _ hstep ih => exact Nat.lt_trans (hnests hstep) ih
  exact Nat.lt_irrefl node (hbelow hcircle)

/-- A function with a region calls itself inside of the region, once. -/
def selfNested : Program := program do
  let x ← decl "x" .int none
  let fresh ← binary .lt (← id "x") (← int 1)
  let count ← assignTo "x" (← binary .add (← id "x") (← int 1))
  let taken ← block [count, ← call "f" []]
  let branch ← ifElse fresh taken none
  let region ← parallel [.numThreads (← int 1)] [branch]
  let callee ← function "f" .void [] [region]
  let call ← call "f" []
  let answer ← ret (some (← id "x"))
  return [x, callee, ← function "main" .int [] [call, answer]]

/-- A thread that meets a region inside of itself waits for itself. -/
theorem selfNested_deadlock : selfNested.LockFree ∧
    (∀ event ∈ selfNested.events {}, event.forks = false) ∧
    (run selfNested {}).fault = some (.deadlock 1) := by
  refine ⟨?_, by decide +kernel, by decide +kernel⟩
  unfold LockFree
  decide +kernel

end CoreC
