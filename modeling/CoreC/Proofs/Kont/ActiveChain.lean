import CoreC.Kont.Allocator
import CoreC.Kont.Table
import CoreC.Task.State

/-! # Active chains

When no two continuations share an address, a task has one continuation after the other
in front of it, up to the end of the program or to the barrier at which the task ends.
-/

namespace CoreC

variable {address : KontAddress}

namespace Continuation

/-- Whether a task leaves the barrier through the continuation. -/
def releases (barrier : Barrier) (kont : Continuation) : Bool :=
  match kont.kind with
  | .release other _ => other = barrier
  | _ => false

/-- Whether a task ends with the continuation. -/
def isLast (kont : Continuation) : Bool :=
  match kont.kind with
  | .release _ .die => true
  | _ => false

/-- The continuation leaves no barrier. -/
def IsPlain (kont : Continuation) : Prop := ∀ barrier mode, kont.kind ≠ .release barrier mode

variable {kont : Continuation}

theorem IsPlain.releases (hplain : kont.IsPlain) (barrier : Barrier) :
    kont.releases barrier = false := by
  unfold Continuation.releases
  split
  next other mode hrelease => exact absurd hrelease (hplain other mode)
  next => rfl

theorem IsPlain.isLast (hplain : kont.IsPlain) : kont.isLast = false := by
  unfold Continuation.isLast
  split
  next barrier hdie => exact absurd hdie (hplain barrier .die)
  next => rfl

end Continuation

namespace KontTable

/-- The continuations from an address on, at most `fuel` of them. -/
def chainWithin (t : KontTable) : Nat → KontAddress → List Continuation
  | 0, _ => []
  | fuel + 1, address =>
    match t.slots[address]? with
    | some (kont :: _) => if kont.isLast then [kont] else kont :: t.chainWithin fuel kont.parent
    | _ => []

/-- The continuations from an address on. Parents lie below their children, so there are
no more than the address says. -/
def activeChain (t : KontTable) (address : KontAddress) : List Continuation :=
  t.chainWithin address address

/-- How often some tasks are still to leave a barrier. -/
def releases (t : KontTable) (barrier : Barrier) (live : List State) : Nat :=
  (live.flatMap fun state => t.activeChain state.kont).countP (·.releases barrier)

/-- Every address below `next` holds at most one continuation, whose parent lies below it;
the others hold none. -/
structure Linked (t : KontTable) (next : KontAddress) : Prop where
  slot : ∀ {address konts}, t.slots[address]? = some konts →
    ∃ kont, konts = [kont] ∧ kont.parent < address ∧ address < next

theorem linked_empty (next : KontAddress) : empty.Linked next := ⟨fun hslot => by simp [empty] at hslot⟩

section Chain

variable {t : KontTable} {next : KontAddress}

variable {kont : Continuation}

theorem getElem?_write (t : KontTable) (address other : KontAddress) (kont : Continuation) :
    (t.write address kont false).slots[other]? =
      if address = other then some [kont] else t.slots[other]? := by
  simp [write, Std.TreeMap.getElem?_insert]

variable (hlinked : t.Linked next)

include hlinked

/-- More fuel than the address says makes no difference. -/
theorem Linked.chainWithin {fuel address : Nat} (hfuel : address ≤ fuel) :
    t.chainWithin fuel address = t.activeChain address := by
  unfold activeChain
  induction fuel using Nat.strongRecOn generalizing address with
  | ind fuel ih =>
    cases fuel with
    | zero => rw [Nat.le_zero.mp hfuel]
    | succ fuel =>
      cases hslot : t.slots[address]? with
      | none => cases address <;> simp [KontTable.chainWithin, hslot]
      | some konts =>
        obtain ⟨kont, rfl, hparent, -⟩ := hlinked.slot hslot
        cases address with
        | zero => exact absurd hparent (Nat.not_lt_zero _)
        | succ address =>
          simp only [KontTable.chainWithin, hslot]
          have hbelow := Nat.le_of_lt_succ hparent
          have haddress := Nat.le_of_succ_le_succ hfuel
          rw [ih fuel (Nat.lt_succ_self fuel) (Nat.le_trans hbelow haddress),
            ih address (Nat.lt_succ_of_le haddress) hbelow]

theorem Linked.activeChain_eq (hslot : t.slots[address]? = some [kont]) :
    t.activeChain address = kont :: if kont.isLast then [] else t.activeChain kont.parent := by
  obtain ⟨_, heq, hparent, -⟩ := hlinked.slot hslot
  cases heq
  rw [← hlinked.chainWithin (Nat.le_succ address), KontTable.chainWithin, hslot]
  dsimp only
  split
  · rfl
  · rw [hlinked.chainWithin (Nat.le_of_lt hparent)]

theorem Linked.write (hparent : kont.parent < next) :
    (t.write next kont false).Linked (next + 1) := by
  refine ⟨fun {address konts} hslot => ?_⟩
  rw [getElem?_write] at hslot
  split at hslot
  next heq =>
    cases hslot
    subst heq
    exact ⟨kont, rfl, hparent, Nat.lt_succ_self _⟩
  next =>
    obtain ⟨held, rfl, hheld, haddress⟩ := hlinked.slot hslot
    exact ⟨held, rfl, hheld, Nat.lt_succ_of_lt haddress⟩

/-- A continuation at a fresh address is in no chain that there was. -/
theorem Linked.activeChain_write (kont : Continuation) (haddress : address < next) :
    (t.write next kont false).activeChain address = t.activeChain address := by
  have hwithin fuel {address} (haddress : address < next) :
      (t.write next kont false).chainWithin fuel address = t.chainWithin fuel address := by
    induction fuel generalizing address with
    | zero => rfl
    | succ fuel ih =>
      rw [KontTable.chainWithin, KontTable.chainWithin, getElem?_write,
        if_neg (Nat.ne_of_gt haddress)]
      cases hslot : t.slots[address]? with
      | none => rfl
      | some konts =>
        obtain ⟨held, rfl, hparent, -⟩ := hlinked.slot hslot
        dsimp only
        rw [ih (Nat.lt_trans hparent haddress)]
  exact hwithin address haddress

theorem Linked.activeChain_new (hparent : kont.parent < next) :
    (t.write next kont false).activeChain next =
      kont :: if kont.isLast then [] else t.activeChain kont.parent := by
  have hslot : (t.write next kont false).slots[next]? = some [kont] := by
    rw [getElem?_write, if_pos rfl]
  rw [(hlinked.write hparent).activeChain_eq hslot, hlinked.activeChain_write kont hparent]

end Chain

/-- Whatever the first table stores the second stores as well. -/
def Within (t t' : KontTable) : Prop :=
  ∀ (address : KontAddress) konts, t.slots[address]? = some konts → t'.slots[address]? = some konts

namespace Within

variable {t t' t'' : KontTable}

theorem refl (t : KontTable) : t.Within t := fun _ _ hslot => hslot

theorem trans (hfirst : t.Within t') (hsecond : t'.Within t'') : t.Within t'' :=
  fun address konts hslot => hsecond address konts (hfirst address konts hslot)

/-- Nothing is stored at a fresh address. -/
theorem write {next : KontAddress} (hlinked : t.Linked next) (kont : Continuation) :
    t.Within (t.write next kont false) := by
  intro address konts hslot
  obtain ⟨-, -, -, hbelow⟩ := hlinked.slot hslot
  rw [getElem?_write, if_neg (Nat.ne_of_gt hbelow), hslot]

end Within

end KontTable

end CoreC
