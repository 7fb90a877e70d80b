import CoreC.Task.Schedule

/-! # What a schedule holds

A schedule is looked at through the lists of the states that are ready and that wait. No
state leaves them but the one that is handed out.
-/

namespace CoreC

open Queue List

namespace Queue

variable {α β : Type}

theorem pop?_of_nil {q : Queue α} (hq : q.toList = []) : q.pop? = none := by
  have hpop := q.pop?_eq
  rw [hq] at hpop
  simpa using hpop

theorem pop?_of_cons {q : Queue α} {a : α} {rest : List α} (hq : q.toList = a :: rest) :
    ∃ q', q.pop? = some (a, q') ∧ q'.toList = rest := by
  have hpop := q.pop?_eq
  rw [hq] at hpop
  obtain ⟨⟨_, q'⟩, hq', heq⟩ := Option.map_eq_some_iff.mp hpop
  cases heq
  exact ⟨q', hq', rfl⟩

theorem toList_pushAll (f : β → α) (items : List β) (q : Queue α) :
    (items.foldl (fun q b => q.push (f b)) q).toList = q.toList ++ items.map f := by
  induction items generalizing q with
  | nil => simp
  | cons b rest ih => simp [ih]

end Queue

namespace Schedule

variable {s s' : Schedule} {teams : Teams} {generation : Nat} {state : State} {states : List State}

/-! ## Waking -/

theorem toList_ready_wake (s : Schedule) (teams : Teams) : (s.wake teams).ready.toList =
      s.ready.toList ++ (s.blocked.toList.filter (!mustWait teams ·)).map (·.awake) := by
  simp only [wake, partition_eq_filter_filter, toList_pushAll]
  rfl

theorem toList_blocked_wake (s : Schedule) (teams : Teams) :
    (s.wake teams).blocked.toList = s.blocked.toList.filter (mustWait teams) := by
  simp [wake, partition_eq_filter_filter]

/-- The schedule of which the next state is taken. -/
def refresh (s : Schedule) (teams : Teams) : Schedule :=
  if s.ready.isEmpty then s.wake teams else s

theorem refresh_of_nil (hready : s.ready.toList = []) : s.refresh teams = s.wake teams :=
  if_pos (by simp [isEmpty_eq, hready])

/-- What the next call does: it hands out the first of those that are ready, if there is one, and leaves
the rest; where nothing is ready but something waits, it refuses. -/
theorem next_cases (s : Schedule) (teams : Teams) :
    (∃ found ready, (s.refresh teams).ready.toList = found.toList ++ ready.toList ∧
      (found = none → (s.refresh teams).blocked.toList = []) ∧
      s.next teams = .ok (found, { s.refresh teams with ready, evaluated := s.evaluated + found.toList.length })) ∨
    ((s.refresh teams).ready.toList = [] ∧ (s.refresh teams).blocked.toList ≠ [] ∧
      s.next teams = .error (.deadlock (s.refresh teams).blocked.size)) := by
  have hcount : (s.refresh teams).evaluated = s.evaluated := by
    unfold refresh
    split <;> rfl
  have hrefresh : (if s.ready.isEmpty then s.wake teams else s) = s.refresh teams := rfl
  simp only [Schedule.next, hrefresh]
  cases hready : (s.refresh teams).ready.toList with
  | cons state rest =>
    obtain ⟨ready, hpop, rfl⟩ := pop?_of_cons hready
    exact .inl ⟨some state, ready, rfl, by simp, by simp [hpop, hcount]⟩
  | nil =>
    rw [pop?_of_nil hready, isEmpty_eq]
    by_cases hblocked : (s.refresh teams).blocked.toList = []
    · refine .inl ⟨none, (s.refresh teams).ready, by simp [hready], fun _ => hblocked, ?_⟩
      simp [hblocked, ← hcount]
    · exact .inr ⟨rfl, hblocked, by simp [hblocked]⟩

/-- A state that is handed out is the first of those that are ready, and the rest stay. -/
theorem next_eq_ok {found : Option State} (hnext : s.next teams = .ok (found, s')) :
    ∃ ready, (s.refresh teams).ready.toList = found.toList ++ ready.toList ∧
      s' = { s.refresh teams with ready, evaluated := s.evaluated + found.toList.length } := by
  rcases next_cases s teams with ⟨first, ready, hready, -, hfirst⟩ | ⟨-, -, hrefused⟩
  · cases hnext.symm.trans hfirst
    exact ⟨ready, hready, rfl⟩
  · cases hnext.symm.trans hrefused

/-! ## What is pending -/

/-- All states that are still to be stepped have a property. -/
def AllPending (P : State → Prop) (s : Schedule) : Prop := ∀ state ∈ s.pending, P state

section AllPending

variable {P : State → Prop}

theorem allPending_iff : s.AllPending P ↔
    (∀ state ∈ s.ready.toList, P state) ∧ ∀ state ∈ s.blocked.toList, P state :=
  forall_mem_append

variable (hawake : ∀ state, P state → P state.awake) (hs : s.AllPending P)

include hawake hs

theorem AllPending.refresh (teams : Teams) : (s.refresh teams).AllPending P := by
  unfold Schedule.refresh
  split
  next =>
    obtain ⟨hready, hblocked⟩ := allPending_iff.mp hs
    rw [allPending_iff, toList_ready_wake, toList_blocked_wake]
    refine ⟨forall_mem_append.mpr ⟨hready, fun woken hwoken => ?_⟩, fun state hstate => ?_⟩
    · obtain ⟨state, hstate, rfl⟩ := mem_map.mp hwoken
      exact hawake state (hblocked state (mem_filter.mp hstate).1)
    · exact hblocked state (mem_filter.mp hstate).1
  next => exact hs

theorem AllPending.next (hnext : s.next teams = .ok (some state, s')) :
    P state ∧ s'.AllPending P := by
  have hrefresh := hs.refresh hawake teams
  obtain ⟨ready, hready, rfl⟩ := next_eq_ok hnext
  rw [allPending_iff, hready] at hrefresh
  obtain ⟨hfirst, hlater⟩ := forall_mem_cons.mp hrefresh.1
  exact ⟨hfirst, allPending_iff.mpr ⟨hlater, hrefresh.2⟩⟩

theorem AllPending.add (hstate : P state) : (s.add teams generation state).AllPending P := by
  obtain ⟨hready, hblocked⟩ := allPending_iff.mp hs
  have hmore {q : Queue State} {new : State} (hq : ∀ state ∈ q.toList, P state) (hnew : P new) :
      ∀ state ∈ (q.push new).toList, P state := by
    rw [toList_push]
    exact forall_mem_append.mpr ⟨hq, by simpa using hnew⟩
  rw [allPending_iff]
  unfold Schedule.add pushReady
  dsimp only
  split
  · exact ⟨hready, hmore hblocked hstate⟩
  · split
    · split
      · exact ⟨hready, hblocked⟩
      · exact ⟨hmore hready (hawake state hstate), hblocked⟩
    · exact ⟨hmore hready (hawake state hstate), hblocked⟩

theorem AllPending.addAll (hstates : ∀ state ∈ states, P state) :
    (s.addAll teams generation states).AllPending P := by
  induction states generalizing s with
  | nil => exact hs
  | cons first rest ih =>
    obtain ⟨hfirst, hrest⟩ := forall_mem_cons.mp hstates
    exact ih (hs.add hawake hfirst) hrest

end AllPending

/-! ## How many are pending -/

/-- The continuations of the states that are still to be stepped, each as often as there are
states with it. -/
def konts (s : Schedule) : List KontAddress := s.pending.map (·.kont)

theorem konts_refresh (s : Schedule) (teams : Teams) : (s.refresh teams).konts.Perm s.konts := by
  unfold refresh
  split
  next =>
    have hsplit := filter_append_perm (mustWait teams) s.blocked.toList
    have hawake : (fun state : State => state.awake.kont) = (·.kont) := rfl
    simp only [konts, pending, toList_ready_wake, toList_blocked_wake, map_append, map_map,
      Function.comp_def, hawake, append_assoc]
    rw [← map_append]
    exact ((perm_append_comm.trans hsplit).map _).append_left _
  next => exact Perm.refl _

theorem konts_next (hnext : s.next teams = .ok (some state, s')) :
    s.konts.Perm (state.kont :: s'.konts) ∧ s'.dedup = s.dedup := by
  have hperm := (s.konts_refresh teams).symm
  obtain ⟨ready, hready, rfl⟩ := next_eq_ok hnext
  refine ⟨by simpa [konts, pending, hready] using hperm, ?_⟩
  unfold refresh
  split <;> rfl

/-- Without looking at what was seen, no state that is handed in is dropped. -/
theorem konts_add (hdedup : s.dedup = false) (teams : Teams) (generation : Nat) (state : State) :
    (s.add teams generation state).konts.Perm (state.kont :: s.konts) ∧
      (s.add teams generation state).dedup = false := by
  unfold add pushReady
  dsimp only
  rw [hdedup, if_neg Bool.false_ne_true]
  split
  · refine ⟨?_, rfl⟩
    simpa [konts, pending] using (perm_append_singleton state.kont s.konts)
  · refine ⟨?_, rfl⟩
    simp only [konts, pending, toList_push, map_append, append_assoc]
    exact perm_middle

theorem konts_addAll (hdedup : s.dedup = false) (teams : Teams) (generation : Nat) (states : List State) :
    (s.addAll teams generation states).konts.Perm (states.map (·.kont) ++ s.konts) ∧
      (s.addAll teams generation states).dedup = false := by
  induction states generalizing s with
  | nil => exact ⟨Perm.refl _, hdedup⟩
  | cons first rest ih =>
    obtain ⟨hfirst, hdedup'⟩ := konts_add hdedup teams generation first
    obtain ⟨hrest, hafter⟩ := ih hdedup'
    exact ⟨hrest.trans ((hfirst.append_left _).trans perm_middle), hafter⟩

/-- While all have to wait, looking again at those set aside changes nothing. -/
theorem wake_of_waiting (hready : s.ready.toList = [])
    (hwait : ∀ state ∈ s.blocked.toList, mustWait teams state = true) :
    (s.wake teams).ready.toList = [] ∧ (s.wake teams).blocked.toList = s.blocked.toList := by
  rw [toList_ready_wake, toList_blocked_wake, hready, filter_eq_self.mpr hwait]
  exact ⟨by simpa using hwait, rfl⟩

/-- A schedule refuses to go on when there are states and all have to wait. -/
theorem next_eq_error_iff {fault : Fault} : s.next teams = .error fault ↔
    fault = .deadlock s.blocked.size ∧ s.ready.toList = [] ∧ s.blocked.toList ≠ [] ∧
      ∀ state ∈ s.blocked.toList, mustWait teams state = true := by
  constructor
  · intro hnext
    rcases next_cases s teams with ⟨found, ready, -, -, hfound⟩ | ⟨hrefresh, hblocked, hrefused⟩
    · cases hnext.symm.trans hfound
    · have hlists : s.ready.toList = [] ∧ ∀ state ∈ s.blocked.toList, mustWait teams state = true := by
        unfold refresh at hrefresh
        split at hrefresh
        next => simpa [toList_ready_wake] using hrefresh
        next hsome => simp [isEmpty_eq, hrefresh] at hsome
      obtain ⟨-, hstays⟩ := wake_of_waiting hlists.1 hlists.2
      rw [refresh_of_nil hlists.1] at hblocked hrefused
      rw [hstays] at hblocked
      rw [size_eq, hstays, ← size_eq] at hrefused
      cases hnext.symm.trans hrefused
      exact ⟨rfl, hlists.1, hblocked, hlists.2⟩
  · rintro ⟨rfl, hready, hblocked, hwait⟩
    obtain ⟨hnone, hstays⟩ := wake_of_waiting hready hwait
    rw [← refresh_of_nil hready] at hnone hstays
    rcases next_cases s teams with ⟨found, ready, hfound, hdone, -⟩ | ⟨-, -, hrefused⟩
    · obtain ⟨hnobody, -⟩ : found = none ∧ _ := by simpa [hnone] using hfound.symm
      exact absurd (hstays.symm.trans (hdone hnobody)) hblocked
    · rw [hrefused, size_eq, hstays, ← size_eq]

end Schedule

end CoreC
