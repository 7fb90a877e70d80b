import CoreC.Proofs.Task.Schedule

/-! # No state is lost

A journal follows a schedule through any calls. Every state that is handed in gets a ticket with
its number, which lies with the states that are ready, set aside, handed out or dropped. The
journal and the schedule agree, so that each state is in one of these places, once.
-/

namespace CoreC

open List Schedule

open Schedule (mustWait stateCode)

/-- A state that was handed in, with its number, and whether it was ever set aside. -/
structure Ticket where
  state : State
  number : Nat
  waited : Bool
  deriving DecidableEq

/-- A call of a schedule. Each call finds the barriers as they are then. -/
inductive Call where
  | add (teams : Teams) (generation : Nat) (states : List State)
  | next (teams : Teams)

structure Journal where
  schedule : Schedule
  /-- States handed in. -/
  received : List State
  /-- States that the schedule handed out. -/
  answers : List State
  served : List Ticket
  ready : List Ticket
  blocked : List Ticket
  dropped : List Ticket

namespace Journal

def new (dedup : Bool) : Journal := ⟨.new dedup, [], [], [], [], [], []⟩

/-- A state is handed in. -/
def add (j : Journal) (teams : Teams) (generation : Nat) (state : State) : Journal :=
  let after := { j with
    schedule := j.schedule.add teams generation state
    received := j.received ++ [state] }
  let ticket : Ticket := ⟨state, j.received.length, mustWait teams state⟩
  if ticket.waited then { after with blocked := j.blocked ++ [ticket] }
  else if j.schedule.dedup && j.schedule.seen.contains (stateCode state.awake generation) then
    { after with dropped := j.dropped ++ [ticket] }
  else { after with ready := j.ready ++ [ticket] }

/-- The tickets of those set aside are looked at again when nothing is ready. -/
def refresh (j : Journal) (teams : Teams) : Journal :=
  let queues :=
    if j.ready.isEmpty then j.blocked.partition (mustWait teams ·.state) else (j.blocked, j.ready)
  { j with blocked := queues.1, ready := queues.2 }

/-- The schedule is asked for the next state. Whatever it answers is kept, with the schedule that it
returns, and as many tickets are taken from those ready. A refusal returns nothing. -/
def next (j : Journal) (teams : Teams) : Journal :=
  match j.schedule.next teams with
  | .error _ => j
  | .ok (answer, schedule) =>
    let fresh := j.refresh teams
    { fresh with
      schedule
      answers := j.answers ++ answer.toList
      served := j.served ++ fresh.ready.take answer.toList.length
      ready := fresh.ready.drop answer.toList.length }

def call (j : Journal) : Call → Journal
  | .add teams generation states => states.foldl (fun j state => j.add teams generation state) j
  | .next teams => j.next teams

/-- All tickets. -/
def tickets (j : Journal) : List Ticket := j.served ++ j.ready ++ j.blocked ++ j.dropped

/-- The journal and its schedule agree. -/
structure Agrees (dedup : Bool) (j : Journal) : Prop where
  setting : j.schedule.dedup = dedup
  ready : j.schedule.ready.toList = j.ready.map (·.state.awake)
  blocked : j.schedule.blocked.toList = j.blocked.map (·.state)
  answers : j.answers = j.served.map (·.state.awake)
  generated : j.schedule.generated = j.received.length
  matched : j.schedule.matched = j.dropped.length
  evaluated : j.schedule.evaluated = j.served.length
  /-- Each state that was handed in has one ticket. -/
  numbered : (j.tickets.map fun ticket => (ticket.state, ticket.number)).Perm j.received.zipIdx
  /-- Those never set aside leave in the order in which they came. -/
  inOrder : ((j.served ++ j.ready).filter (!·.waited)).Pairwise (·.number < ·.number)
  waited : ∀ ticket ∈ j.blocked, ticket.waited = true
  undropped : dedup = false → j.dropped = []

variable {dedup : Bool} {j : Journal} {teams : Teams} {generation : Nat} {state : State}

theorem agrees_new (dedup : Bool) : (new dedup).Agrees dedup where
  setting := rfl
  ready := rfl
  blocked := rfl
  answers := rfl
  generated := rfl
  matched := rfl
  evaluated := rfl
  numbered := .nil
  inOrder := .nil
  waited := by simp [new]
  undropped := fun _ => rfl

/-- A further ticket, wherever it lies, goes to the state that is handed in. -/
theorem Agrees.numbered_add (hj : j.Agrees dedup) (waited : Bool) {tickets : List Ticket}
    (hcount : ∀ other, tickets.count other = (⟨state, j.received.length, waited⟩ :: j.tickets).count other) :
    (tickets.map fun ticket => (ticket.state, ticket.number)).Perm (j.received ++ [state]).zipIdx := by
  refine ((perm_iff_count.mpr hcount).map _).trans ?_
  rw [zipIdx_append, map_cons]
  simpa using (hj.numbered.cons _).trans (perm_append_singleton _ _).symm

/-- A state that need not wait and is not dropped is made ready, whether or not it is noted as seen. -/
theorem exists_add_eq {s : Schedule} (hwait : ¬mustWait teams state)
    (hkeep : ¬(s.dedup && s.seen.contains (stateCode state.awake generation))) :
    ∃ seen, s.add teams generation state =
      { s with generated := s.generated + 1, seen, ready := s.ready.push state.awake } := by
  unfold Schedule.add Schedule.pushReady
  dsimp only
  rw [if_neg hwait]
  split
  next hdedup => exact ⟨_, if_neg fun hseen => hkeep (by simp [hdedup, hseen])⟩
  next => exact ⟨_, rfl⟩

section

variable (hj : j.Agrees dedup)

include hj

theorem Agrees.add : (j.add teams generation state).Agrees dedup := by
  have hcount {a b : List Ticket} {ticket : Ticket} (other : Ticket) :
      (a ++ [ticket] ++ b).count other = (ticket :: (a ++ b)).count other := by
    simp only [count_append, count_cons, count_nil]
    omega
  have hgenerated : j.schedule.generated + 1 = (j.received ++ [state]).length := by simp [hj.generated]
  unfold Journal.add
  dsimp only
  split
  next hwait =>
    rw [Schedule.add, if_pos hwait]
    refine { hj with
      blocked := by simp [hj.blocked], generated := hgenerated, numbered := ?_, waited := ?_ }
    · refine hj.numbered_add (mustWait teams state) fun other => ?_
      rw [tickets, ← append_assoc, hcount, tickets]
    · simpa [or_imp, forall_and, hwait] using hj.waited
  next hwait =>
    split
    next hdrop =>
      obtain ⟨hdedup, hseen⟩ := Bool.and_eq_true_iff.mp hdrop
      rw [Schedule.add, if_neg hwait, Schedule.pushReady, if_pos hdedup, if_pos hseen]
      refine { hj with
        matched := by simp [hj.matched], generated := hgenerated, numbered := ?_,
        undropped := fun hkeeps => by cases hdedup.symm.trans (hj.setting.trans hkeeps) }
      refine hj.numbered_add (mustWait teams state) fun other => ?_
      rw [tickets, ← append_nil (_ ++ _), ← append_assoc, hcount, append_nil, tickets]
    next hkeep =>
      obtain ⟨seen, heq⟩ := exists_add_eq hwait hkeep
      rw [heq]
      refine { hj with
        ready := by simp [hj.ready], generated := hgenerated, numbered := ?_, inOrder := ?_ }
      · refine hj.numbered_add (mustWait teams state) fun other => ?_
        rw [tickets, ← append_assoc, append_assoc _ j.blocked, hcount, tickets, append_assoc _ j.blocked]
      · rw [← append_assoc, filter_append, pairwise_append]
        refine ⟨hj.inOrder, by simp [hwait], fun ticket hticket other hother => ?_⟩
        obtain ⟨rfl, -⟩ : other = ⟨state, j.received.length, mustWait teams state⟩ ∧ _ := by simpa using hother
        refine snd_lt_of_mem_zipIdx (hj.numbered.mem_iff.mp (mem_map_of_mem ?_))
        exact mem_append_left _ (mem_append_left _ (mem_filter.mp hticket).1)

/-- Those woken had been set aside, so that the order of the others stays. -/
theorem Agrees.refresh (teams : Teams) :
    Agrees dedup { j.refresh teams with schedule := j.schedule.refresh teams } := by
  have hempty : j.schedule.ready.isEmpty = j.ready.isEmpty := by
    rw [Queue.isEmpty_eq, hj.ready, isEmpty_map]
  unfold Journal.refresh Schedule.refresh
  dsimp only
  rw [hempty]
  split
  next hnone =>
    rw [List.isEmpty_iff] at hnone
    rw [partition_eq_filter_filter]
    refine { hj with ready := ?_, blocked := ?_, numbered := ?_, inOrder := ?_, waited := ?_ }
    · simp [toList_ready_wake, hj.ready, hj.blocked, hnone, filter_map, Function.comp_def]
    · simp [toList_blocked_wake, hj.blocked, filter_map, Function.comp_def]
    · refine (Perm.map _ ?_).trans hj.numbered
      have hsplit := filter_append_perm (fun ticket : Ticket => mustWait teams ticket.state) j.blocked
      simp only [tickets, hnone, append_nil, append_assoc]
      exact Perm.append_left _ (append_assoc _ _ _ ▸ (perm_append_comm.trans hsplit).append_right _)
    · have hwoken : ∀ ticket ∈ j.blocked.filter (!mustWait teams ·.state), ¬(!ticket.waited) = true :=
        fun ticket hticket => by simp [hj.waited ticket (mem_filter.mp hticket).1]
      have hinOrder := hj.inOrder
      rw [hnone, append_nil] at hinOrder
      simpa only [filter_append, Function.comp_def, filter_eq_nil_iff.mpr hwoken, append_nil]
    · exact fun ticket hticket => hj.waited ticket (mem_filter.mp hticket).1
  next => exact { hj with }

/-- The tickets that are taken are those of the states handed out. -/
theorem Agrees.next : (j.next teams).Agrees dedup := by
  have hfresh := hj.refresh teams
  unfold Journal.next
  split
  next => exact hj
  next answer schedule hnext =>
    obtain ⟨ready, hready, rfl⟩ := next_eq_ok hnext
    have hlist : (j.refresh teams).ready.map (·.state.awake) = answer.toList ++ ready.toList :=
      hfresh.ready.symm.trans hready
    have htaken : ((j.refresh teams).ready.take answer.toList.length).map (·.state.awake) = answer.toList := by
      rw [map_take, hlist, take_left]
    have hcount := congrArg length htaken
    rw [length_map] at hcount
    have hmoved : j.served ++ (j.refresh teams).ready.take answer.toList.length ++
        (j.refresh teams).ready.drop answer.toList.length = (j.refresh teams).served ++ (j.refresh teams).ready := by
      rw [append_assoc, take_append_drop]
      rfl
    exact { hfresh with
      ready := by rw [map_drop, hlist, drop_left]
      answers := by rw [map_append, htaken, hj.answers]
      evaluated := by rw [length_append, hcount, hj.evaluated]
      numbered := by simpa only [tickets, hmoved] using hfresh.numbered
      inOrder := by simpa only [hmoved] using hfresh.inOrder }

theorem Agrees.call (call : Call) : (j.call call).Agrees dedup := by
  cases call with
  | next teams => exact hj.next
  | add teams generation states =>
    unfold Journal.call
    induction states generalizing j with
    | nil => exact hj
    | cons state rest ih => exact ih hj.add

end

theorem mustWait_iff : mustWait teams state = true ↔
    ∃ barrier, state.barrier = some barrier ∧ teams.isClear barrier = false := by
  unfold mustWait
  cases state.barrier <;> simp

/-- **No state is lost.** After any calls, between which barriers may change in any way, the counters
add up to the states handed in. Without `dedup` nothing is dropped, and the states handed in are those
handed out and those pending. What was never set aside is handed out in the order in which it came.
The schedule refuses to go on exactly if nothing is ready, something is set aside and no barrier that
is waited for is clear. It is then the schedule that there was, and looking again at those set aside
has left both queues as they were. -/
theorem conserves_states (dedup : Bool) (calls : List Call) :
    let j := calls.foldl call (new dedup)
    let s := j.schedule
    s.generated = s.evaluated + s.matched + s.ready.size + s.blocked.size ∧
    (dedup = false → s.matched = 0 ∧
      (j.received.map (·.awake)).Perm ((j.answers ++ s.pending).map (·.awake))) ∧
    (j.answers = j.served.map (·.state.awake) ∧
      (∀ ticket ∈ j.served, j.received[ticket.number]? = some ticket.state) ∧
      (j.served.filter (!·.waited)).Pairwise (·.number < ·.number)) ∧
    ∀ teams fault, (s.next teams = .error fault ↔ fault = .deadlock s.blocked.size ∧
        s.ready.toList = [] ∧ s.blocked.toList ≠ [] ∧ ∀ state ∈ s.blocked.toList,
          ∃ barrier, state.barrier = some barrier ∧ teams.isClear barrier = false) ∧
      (s.next teams = .error fault → (j.next teams).schedule = s ∧
        (s.wake teams).ready.toList = s.ready.toList ∧ (s.wake teams).blocked.toList = s.blocked.toList) := by
  intro j s
  have hj : j.Agrees dedup := foldlRecOn calls call (agrees_new dedup) fun _ hj call _ => hj.call call
  refine ⟨?_, fun hkeeps => ?_, ⟨hj.answers, fun ticket hticket => ?_, ?_⟩, fun teams fault => ⟨?_, fun hnext => ?_⟩⟩
  · have hlength := hj.numbered.length_eq
    simp only [tickets, length_map, length_append, length_zipIdx] at hlength
    simp only [s, hj.generated, hj.evaluated, hj.matched, Queue.size_eq, hj.ready, hj.blocked, length_map]
    omega
  · refine ⟨by simp [s, hj.matched, hj.undropped hkeeps], ?_⟩
    have hstates : j.received.Perm (j.tickets.map (·.state)) := by
      simpa [Function.comp_def] using (hj.numbered.map Prod.fst).symm
    have hawake : (fun ticket : Ticket => ticket.state.awake.awake) = (·.state.awake) := rfl
    simpa [s, tickets, hj.undropped hkeeps, pending, hj.ready, hj.blocked, hj.answers,
      Function.comp_def, hawake] using hstates.map (·.awake)
  · have hmem : ticket ∈ j.tickets := by simp [tickets, hticket]
    have hentry := hj.numbered.mem_iff.mp (mem_map_of_mem hmem)
    exact mem_zipIdx_iff_getElem?.mp hentry
  · have hinOrder := hj.inOrder
    rw [filter_append] at hinOrder
    exact (pairwise_append.mp hinOrder).1
  · simp only [next_eq_error_iff, mustWait_iff]
  · obtain ⟨-, hready, -, hwait⟩ := next_eq_error_iff.mp hnext
    rw [Journal.next, hnext, hready]
    exact ⟨rfl, wake_of_waiting hready hwait⟩

end Journal

end CoreC
