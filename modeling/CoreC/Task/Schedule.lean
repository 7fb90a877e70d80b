import CoreC.Kont.Allocator
import CoreC.Task.Queue
import CoreC.Task.State
import CoreC.Task.Team
import Std.Data.TreeSet

/-! # Schedules

Tasks are stepped in the order in which they arrive. A task whose barrier is not
clear is set aside; when no task is ready those set aside are looked at again, and
if none of them can go on the run is in deadlock.

Memory that only grows makes a state that was seen over the same memory redundant:
with `dedup` such a state is dropped. That is what ends loops over partly known
values.
-/

namespace CoreC

structure Schedule where
  dedup : Bool
  ready : Queue State
  blocked : Queue State
  /-- Numbers of the states that were made ready, with the age of memory. -/
  seen : Std.TreeSet (List Nat)
  /-- States handed in. -/
  generated : Nat
  /-- States dropped because they were seen before. -/
  matched : Nat
  /-- States handed out. -/
  evaluated : Nat

namespace Schedule

def new (dedup : Bool) : Schedule := ⟨dedup, .empty, .empty, ∅, 0, 0, 0⟩

/-- Numbers that identify a ready state over memory of a given age. -/
def stateCode (state : State) (generation : Nat) : List Nat :=
  KontKey.controlCode state.control ++ [state.frame, state.kont, state.thread, generation]

def mustWait (teams : Teams) (state : State) : Bool :=
  match state.barrier with
  | some barrier => !teams.isClear barrier
  | none => false

def pending (s : Schedule) : List State := s.ready.toList ++ s.blocked.toList

/-- Makes a state ready, unless it was before. -/
def pushReady (s : Schedule) (generation : Nat) (state : State) : Schedule :=
  if s.dedup then
    let code := stateCode state generation
    if s.seen.contains code then { s with matched := s.matched + 1 }
    else { s with seen := s.seen.insert code, ready := s.ready.push state }
  else { s with ready := s.ready.push state }

def add (s : Schedule) (teams : Teams) (generation : Nat) (state : State) : Schedule :=
  let s := { s with generated := s.generated + 1 }
  if mustWait teams state then { s with blocked := s.blocked.push state }
  else s.pushReady generation state.awake

def addAll (s : Schedule) (teams : Teams) (generation : Nat) (states : List State) : Schedule :=
  states.foldl (fun s state => s.add teams generation state) s

/-- Makes ready those set aside that need not wait any longer. They are not looked up
among the states seen: trying a lock again repeats a state. -/
def wake (s : Schedule) (teams : Teams) : Schedule :=
  let (waiting, woken) := s.blocked.toList.partition (mustWait teams)
  { s with
    blocked := .ofList waiting
    ready := woken.foldl (fun q state => q.push state.awake) s.ready }

/-- Hands out the next state to step; `none` when all is done. -/
def next (s : Schedule) (teams : Teams) : Except Fault (Option State × Schedule) :=
  let s := if s.ready.isEmpty then s.wake teams else s
  match s.ready.pop? with
  | some (state, ready) => .ok (some state, { s with ready, evaluated := s.evaluated + 1 })
  | none =>
      if s.blocked.isEmpty then .ok (none, s) else .error (.deadlock s.blocked.size)

end Schedule

end CoreC
