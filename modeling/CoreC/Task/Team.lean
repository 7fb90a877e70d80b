import CoreC.Settings
import CoreC.Task.Barrier

/-! # Thread teams

Which threads there are, how many may be made, and who is still inside a construct.
Every barrier has a count of the tasks inside; a task adds itself when it enters and
takes itself off when it leaves.
-/

namespace CoreC

/-- A thread's position in a team. -/
structure TeamSlot where
  threadNum : Nat
  teamSize : Nat
  /-- Whether entering this team made a parallel region active. -/
  active : Bool
  deriving DecidableEq

structure Teams where
  settings : TeamSettings
  /-- Threads that a parallel region asks for if it does not say. -/
  numThreads : Nat
  /-- Tasks inside each barrier, by the barrier's number. -/
  barriers : Std.TreeMap Nat Nat
  lastThread : ThreadId
  /-- Teams that a thread is in, innermost first. -/
  slots : Std.TreeMap ThreadId (List TeamSlot)
  /-- Threads at work. -/
  busy : Nat
  activeLevels : Nat

namespace Teams

def new (settings : TeamSettings) : Teams :=
  ⟨settings, settings.numThreads, ∅, 0, ∅, 1, 0⟩

def newThread (t : Teams) : ThreadId × Teams :=
  (t.lastThread + 1, { t with lastThread := t.lastThread + 1 })

/-- How many threads a parallel region may make, its own thread aside. -/
def spareThreads (t : Teams) (requested : Option Nat) : Nat :=
  let requested := max (requested.getD t.numThreads) 1
  let available := t.settings.threadLimit + 1 - t.busy
  if 1 ≤ t.activeLevels ∧ !t.settings.nested then 0
  else if t.settings.maxActiveLevels ≤ t.activeLevels then 0
  else if requested ≤ available then requested - 1
  else if t.settings.dynamic then available - 1
  else 0

/-- Takes threads for a parallel region. Returns how many, its own thread aside. -/
def takeThreads (t : Teams) (requested : Option Nat) : Nat × Teams :=
  let children := t.spareThreads requested
  (children, { t with busy := t.busy + children })

def setNumThreads (t : Teams) (n : Nat) : Teams := { t with numThreads := max n 1 }

def pending (t : Teams) (barrier : Barrier) : Nat := t.barriers.getD barrier.code 0

def isClear (t : Teams) (barrier : Barrier) : Bool := t.pending barrier = 0

def enterBarrier (t : Teams) (barrier : Barrier) : Teams :=
  { t with barriers := t.barriers.insert barrier.code (t.pending barrier + 1) }

def leaveBarrier (t : Teams) (barrier : Barrier) : Teams :=
  { t with barriers := t.barriers.modify barrier.code (· - 1) }

def slot? (t : Teams) (thread : ThreadId) : Option TeamSlot := (t.slots.getD thread []).head?

def threadNum (t : Teams) (thread : ThreadId) : Nat := (t.slot? thread).elim 0 (·.threadNum)

def teamSize (t : Teams) (thread : ThreadId) : Nat := (t.slot? thread).elim 1 (·.teamSize)

def enterTeam (t : Teams) (thread : ThreadId) (slot : TeamSlot) : Teams :=
  { t with
    activeLevels := if slot.active then t.activeLevels + 1 else t.activeLevels
    slots := t.slots.insert thread (slot :: t.slots.getD thread []) }

def leaveTeam (t : Teams) (thread : ThreadId) : Teams :=
  match t.slots.getD thread [] with
  | [] => t
  | slot :: rest =>
      { t with
        activeLevels := if slot.active then t.activeLevels - 1 else t.activeLevels
        slots := t.slots.insert thread rest }

/-- A thread that a parallel region made is gone. -/
def retire (t : Teams) (thread : ThreadId) : Teams :=
  { t with busy := max (t.busy - 1) 1, slots := t.slots.erase thread }

/-- Gives a loop task the position of the thread that made it. -/
def inherit (t : Teams) (creator thread : ThreadId) : Teams :=
  match t.slot? creator with
  | some slot => { t with slots := t.slots.insert thread [{ slot with active := false }] }
  | none => t

end Teams

end CoreC
