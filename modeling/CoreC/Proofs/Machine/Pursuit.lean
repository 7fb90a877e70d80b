import CoreC.Proofs.Machine.MutualExclusion

/-! # Tasks on their way to a barrier

A task that ends at a barrier is on its way there from the moment it is started: whichever task
is stepped, some live task goes on towards the same continuation, until a task that has only
returns left in front of it gets there and ends.
-/

namespace CoreC

open Continuation List

variable {kont : Continuation}

namespace KontTable

/-- A task under the address gets to `goal`, one continuation after the other. -/
inductive Leads (t : KontTable) (goal : KontAddress) : KontAddress → Prop where
  | here : Leads t goal goal
  | up {address : KontAddress} {kont : Continuation} (hslot : t.slots[address]? = some [kont])
      (hlast : kont.isLast = false) (hparent : Leads t goal kont.parent) : Leads t goal address

/-- A task under the address gets to `goal` through returns only. -/
inductive Returns (t : KontTable) (goal : KontAddress) : KontAddress → Prop where
  | here : Returns t goal goal
  | up {address : KontAddress} {kont : Continuation} {scalar : Option Scalar}
      (hslot : t.slots[address]? = some [kont]) (hkind : kont.kind = .ret scalar)
      (hparent : Returns t goal kont.parent) : Returns t goal address

/-- A task ends with the continuation at the address. -/
def Ends (t : KontTable) (address : KontAddress) : Prop :=
  ∃ kont, t.slots[address]? = some [kont] ∧ kont.isLast = true

variable {t t' : KontTable} {goal address : KontAddress}

theorem Ends.within (hends : t.Ends goal) (hwithin : t.Within t') : t'.Ends goal := by
  obtain ⟨kont, hslot, hlast⟩ := hends
  exact ⟨kont, hwithin _ _ hslot, hlast⟩

section

variable (hleads : t.Leads goal address)

include hleads

theorem Leads.within (hwithin : t.Within t') : t'.Leads goal address := by
  induction hleads with
  | here => exact .here
  | up hslot hlast _ ih => exact .up (hwithin _ _ hslot) hlast ih

/-- A continuation with which no task ends lies before the goal, and so does its parent. -/
theorem Leads.parent (hends : t.Ends goal)
    (hslot : t.slots[address]? = some [kont]) (hlast : kont.isLast = false) : t.Leads goal kont.parent := by
  cases hleads with
  | here =>
    obtain ⟨_, hfound, hend⟩ := hends
    cases hslot.symm.trans hfound
    rw [hlast] at hend
    cases hend
  | up hfound _ hparent =>
    cases hslot.symm.trans hfound
    exact hparent

theorem Leads.eq_of_isLast (hslot : t.slots[address]? = some [kont])
    (hlast : kont.isLast = true) : goal = address := by
  cases hleads with
  | here => rfl
  | up hfound hgoes _ =>
    cases hslot.symm.trans hfound
    rw [hlast] at hgoes
    cases hgoes

end

/-- The goal's continuation is among those that the task has in front of it. -/
theorem Leads.mem_activeChain {next : KontAddress} (hlinked : t.Linked next) {last : Continuation}
    (hleads : t.Leads goal address) (hgoal : t.slots[goal]? = some [last]) :
    last ∈ t.activeChain address := by
  induction hleads with
  | here =>
    rw [hlinked.activeChain_eq hgoal]
    exact mem_cons_self
  | up hslot hlast _ ih =>
    rw [hlinked.activeChain_eq hslot, if_neg (by simp [hlast])]
    exact mem_cons_of_mem _ ih

end KontTable

namespace Machine

variable {ι φ : Type}

/-- What becomes of a task that is on its way to its end: it goes on, or it was there. -/
structure Onward (state : State) (m : Machine ι φ) (states : List State) (m' : Machine ι φ) : Prop where
  within : m.konts.Within m'.konts
  leads : ∀ {goal}, m.konts.Ends goal → m.konts.Leads goal state.kont →
    (∃ next ∈ states, m'.konts.Leads goal next.kont) ∨ states = [] ∧ m.konts.Returns goal state.kont

variable {states : List State} {m m' : Machine ι φ} {state next : State}

section

variable (hwithin : m.konts.Within m'.konts) (hnext : next ∈ states)

include hwithin hnext

/-- One task goes on under the same continuation. -/
theorem Onward.of_mem (hkont : next.kont = state.kont) : Onward state m states m' where
  within := hwithin
  leads _ hleads := .inl ⟨next, hnext, hkont ▸ hleads.within hwithin⟩

/-- One task goes on under a continuation on top of that of the task. -/
theorem Onward.of_push
    (hslot : m'.konts.slots[next.kont]? = some [kont]) (hlast : kont.isLast = false)
    (hparent : kont.parent = state.kont) : Onward state m states m' where
  within := hwithin
  leads _ hleads := .inl ⟨next, hnext, .up hslot hlast (hparent ▸ hleads.within hwithin)⟩

/-- One task goes on under the parent of the task's continuation. -/
theorem Onward.of_pop
    (hslot : m.konts.slots[state.kont]? = some [kont]) (hlast : kont.isLast = false)
    (hkont : next.kont = kont.parent) : Onward state m states m' where
  within := hwithin
  leads hends hleads := by
    have hparent := (hleads.parent hends hslot hlast).within hwithin
    exact .inl ⟨next, hnext, hkont ▸ hparent⟩

end

/-- What is still makes no difference to what is stored. -/
theorem Onward.after {state : State} {m middle m' : Machine ι φ}
    (hstill : Still m middle) (honward : Onward state middle states m') : Onward state m states m' := by
  have hkonts := hstill.konts
  refine ⟨hkonts ▸ honward.within, fun hends hleads => ?_⟩
  rw [← hkonts] at hends hleads ⊢
  exact honward.leads hends hleads

/-! ## Steps -/

section Steps

variable {state : State} {states rest : List State} {forks : Bool} {m m' : Machine ι φ}

/-- By induction on the returns that are passed. -/
theorem Onward.hands (hhands : Hands m forks state states m') (hlinked : m.konts.Linked m.allocator.next) :
    Onward state m states m' := by
  have hsame {konts} (hkonts : konts = m.konts) : m.konts.Within konts := hkonts ▸ .refl _
  induction hhands with
  | halts hkont hstill =>
    refine ⟨hsame hstill.konts, ?_⟩
    -- Nothing is stored at the end of the program, so no task ends there at a barrier.
    rintro goal ⟨last, hgoal, -⟩ hleads
    obtain ⟨_, -, hparent, -⟩ := hlinked.slot hgoal
    rw [hkont] at hleads
    cases hleads with
    | here => exact absurd hparent (Nat.not_lt_zero _)
    | up hslot _ _ =>
      obtain ⟨_, -, hbelow, -⟩ := hlinked.slot hslot
      exact absurd hbelow (Nat.not_lt_zero _)
  | resumes hslot hplain hstill hstates hsome _ =>
    obtain ⟨next, hnext⟩ := exists_mem_of_ne_nil _ hsome
    exact .of_pop (hsame hstill.konts) hnext hslot hplain.isLast (hstates next hnext).1
  | returns hslot hkind hkont _ _ ih =>
    have hlast := (IsPlain.of_ret hkind).isLast
    refine ⟨ih.within, fun hends hleads => ?_⟩
    rcases ih.leads hends (hkont ▸ hleads.parent hends hslot hlast) with hgoes | ⟨hnone, hreturns⟩
    · exact .inl hgoes
    · exact .inr ⟨hnone, .up hslot hkind (hkont ▸ hreturns)⟩
  | ends hslot hkind _ =>
    refine ⟨.refl _, fun hends hleads => ?_⟩
    cases hleads.eq_of_isLast hslot (by simp [isLast, hkind])
    exact .inr ⟨rfl, .here⟩
  | joins hslot hkind hstill hkont _ | unlocks hslot hkind hstill hkont _ =>
    exact .of_pop (hsame hstill.konts) mem_cons_self hslot (by simp [isLast, hkind]) hkont

/-- One case for each transition. -/
theorem Onward.goes (hgoes : Goes forks state m states m') (hm : Accounted [] (state :: rest) m) :
    Onward state m states m' := by
  induction hgoes with
  | after hstill _ ih => exact .after hstill (ih (hm.still hstill))
  | proceeds hkont _ => exact .of_mem (.refl _) mem_cons_self hkont
  | @pushes m m' next kont hplain hparent hstill hkont _ =>
    have hwithin : m.konts.Within (m.withKont kont).konts := .write hm.linked kont
    have hslot := withKont_slot m kont
    rw [← hstill.konts] at hwithin hslot
    exact .of_push hwithin mem_cons_self (hkont ▸ hslot) hplain.isLast hparent
  | hands hhands => exact .hands hhands hm.linked
  | locks _ hstarts =>
    obtain ⟨hwithin, hslot⟩ := hstarts.stores hm.linked
    exact .of_push hwithin mem_cons_self hslot rfl rfl
  | opens _ _ hteam =>
    obtain ⟨-, hentered, hfirst, hworkers⟩ := hteam
    subst hentered
    obtain ⟨hwithin, hslot⟩ := hfirst.stores hm.linked
    obtain ⟨hstarted, hbelow⟩ := Accounted.starts hfirst (hm.teams fun _ => rfl) (by simp) (by simp)
    obtain ⟨-, hlater, workers, rfl, -, -⟩ :=
      Accounted.makes hworkers (fun _ => rfl) (fun _ => rfl) (fun _ _ _ _ => rfl) hstarted hbelow
    exact .of_push (hwithin.trans hlater) mem_cons_self (hlater _ _ hslot) rfl rfl
  | loops _ hkont _ hloop =>
    obtain ⟨body, privatized, hmakes⟩ := hloop
    obtain ⟨-, hwithin, iterations, rfl, -, -⟩ := Accounted.makes hmakes (fun _ => rfl) (fun _ => rfl)
      (fun _ _ _ _ => Teams.pending_inherit _ _ _ _) (hm.same_kont hkont) (hm.known state mem_cons_self)
    exact .of_mem hwithin mem_cons_self hkont

variable [DecidableEq ι] [BEq φ] [Domain ι φ] [Domain.Productive ι φ]

/-- A step takes its task on. -/
theorem onward_step (hm : Accounted [] (state :: rest) m) (hstep : step state m = .ok states m') :
    Onward state m states m' := by
  obtain ⟨forks, -, hgoes⟩ := goes_of_step hm.chained hstep
  exact .goes hgoes hm

/-- What meeting a parallel loop leads to: the task goes on behind the loop, waiting for the barrier
unless told not to; its iterations, which only the first thread of a team makes, end at it. -/
theorem step_loop {block node : NodeId} {index : Nat} {clauses : List Clause} {var : String}
    {init bound step body : NodeId} {condOp stepOp : BinOp} (hm : Accounted [] (state :: rest) m)
    (hcontrol : state.control = .stmt block index) (hstmt : state.control.stmt? m.program = some node)
    (hloop : m.program.construct? node = some (.parallelFor clauses var init condOp bound stepOp step body))
    (hstep : Machine.step state m = .ok states m') :
    ∃ successor iterations, Control.afterStmt m.outline node = .ok successor ∧
      states = (if .noWait ∈ clauses then state.goto successor
        else (state.goto successor).waitingOn (.construct node)) :: iterations ∧
      (m.teams.threadNum state.thread ≠ 0 → iterations = []) ∧
      EndAt (.construct node) iterations m' := by
  unfold Machine.step at hstep
  rw [hcontrol] at hstep hstmt
  have hexecute := get_bind_eq_ok.mp hstep
  rw [hstmt] at hexecute
  obtain ⟨_, _, hfound, hrun⟩ := bind_eq_ok.mp hexecute
  obtain ⟨hconstruct, rfl⟩ := constructAt_eq_ok.mp hfound
  cases hloop.symm.trans hconstruct
  obtain ⟨successor, count, asked, hsuccessor, hcount, hasked, body, privatized, hmakes⟩ :=
    loops_of_startLoop hrun hm.chained.toReady
  have hasked := hm.still hasked
  have hkont : (if .noWait ∈ clauses then state.goto successor
      else (state.goto successor).waitingOn (.construct node)).kont = state.kont := by split <;> rfl
  obtain ⟨-, -, iterations, rfl, rfl, hend⟩ := Accounted.makes hmakes (fun _ => rfl) (fun _ => rfl)
    (fun _ _ _ _ => Teams.pending_inherit _ _ _ _) (hasked.same_kont hkont) (hasked.known state mem_cons_self)
  exact ⟨successor, iterations, hsuccessor, rfl, fun hother => length_eq_zero_iff.mp (hcount hother), hend⟩

end Steps

end Machine

end CoreC
