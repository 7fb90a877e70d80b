import CoreC.Machine.Eval
import CoreC.Machine.Jump

/-! # Parallel constructs

A parallel region runs its block once per thread of a team, a parallel loop once per
iteration, and a critical section once the lock is free. The end of such a block is a
continuation that takes the task off the barrier. Of the tasks of a region or a loop
only the one that met the construct goes on behind it.
-/

namespace CoreC

inductive Privatization where
  | fresh
  | copied
  deriving DecidableEq

def Clause.privatized (clauses : List Clause) : List (String × Privatization) :=
  clauses.flatMap fun
    | .privateVars names => names.map (·, .fresh)
    | .firstPrivateVars names => names.map (·, .copied)
    | _ => []

namespace Machine

variable {ι φ : Type} [DecidableEq ι] [BEq φ] [Domain ι φ]

def declareLocal (frame : FrameId) (name : String) (type : CType) : MachineM ι φ Address := do
  let (binding, _) ← onEnv fun env => env.declare frame name type
  allocateBinding binding

def privatize (outer frame : FrameId) (name : String) (how : Privatization) :
    MachineM ι φ PUnit := do
  let shared ← resolveName outer name
  let address ← declareLocal frame name shared.type
  if how = .copied then copyObject shared.address address shared.type

structure BlockTask where
  block : NodeId
  thread : ThreadId
  barrier : Barrier
  mode : ReleaseMode
  resume : Control
  privatized : List (String × Privatization)

def startBlock (state : State) (task : BlockTask) : MachineM ι φ State := do
  onTeams fun teams => (PUnit.unit, teams.enterBarrier task.barrier)
  let frame ← newFrame task.block (some state.frame)
  task.privatized.forM fun (name, how) => privatize state.frame frame name how
  let kont ← pushKont ⟨.release task.barrier task.mode, task.resume, state.frame, state.kont⟩
    task.thread
  let control ← check (Control.enter (← get).outline task.block)
  return ⟨control, frame, kont, task.thread, none⟩

def singleValue (what : String) (values : ValueSet ι φ) : Except Fault (Value ι φ) :=
  match values.items with
  | [v] => .ok v
  | _ => .error (.unsupported (.singleValue what))

/-- The number of threads that the clauses of a region ask for, the last one if there
are several. -/
def requestedThreads (state : State) (clauses : List Clause) : MachineM ι φ (Option Nat) :=
  (Clause.children clauses).foldlM (fun _ count => do
    let v ← check (singleValue "num_threads" (← eval state count))
    let n ← check v.exactInt
    if 0 < n then return some n.toNat
    else throw (.unsupported (.positiveConstant "num_threads"))) none

/-- Starts the workers of a team, numbered from `first` on. Those started already are
given latest first. -/
def startWorkers (state : State) (task : ThreadId → BlockTask) (teamSize : Nat) :
    Nat → Nat → List State → MachineM ι φ (List State)
  | 0, _, started => return started.reverse
  | count + 1, first, started => do
      let thread ← onTeams Teams.newThread
      onTeams fun teams => (PUnit.unit, teams.enterTeam thread ⟨first, teamSize, false⟩)
      let worker ← startBlock state (task thread)
      startWorkers state task teamSize count (first + 1) (worker :: started)

def startTeam (state : State) (node : NodeId) (clauses : List Clause) (block : NodeId) :
    MachineM ι φ (List State) := do
  let requested ← requestedThreads state clauses
  let children ← onTeams fun teams => teams.takeThreads requested
  let resume ← check (Control.afterStmt (← get).outline node)
  let task (mode : ReleaseMode) (thread : ThreadId) : BlockTask :=
    ⟨block, thread, .construct node, mode, resume, Clause.privatized clauses⟩
  onTeams fun teams =>
    (PUnit.unit, teams.enterTeam state.thread ⟨0, children + 1, 0 < children⟩)
  let first ← startBlock state (task .wait state.thread)
  startWorkers state (task .die) (children + 1) children 1 [first]

/-- The most tasks that one loop may make. -/
def maxLoopTasks : Nat := 100000

/-- How the counter of a parallel loop moves. -/
structure LoopRange (ι φ : Type) where
  condOp : BinOp
  bound : Value ι φ
  stepOp : BinOp
  step : Value ι φ

def continues (t : Target) (range : LoopRange ι φ) (current : Value ι φ) : Except Fault Bool := do
  let tests ← current.operate t range.condOp range.bound
  let outcomes := (← tests.items.mapM Value.truth).flatten
  match outcomes.contains true, outcomes.contains false with
  | true, false => return true
  | false, true => return false
  | _, _ => .error (.unsupported .undeterminedLoop)

def nextValue (t : Target) (range : LoopRange ι φ) (current : Value ι φ) :
    Except Fault (Value ι φ) :=
  match range.stepOp with
  | .add | .sub | .mul | .div => do
      singleValue "loop counter" (← current.operate t range.stepOp range.step)
  | op => .error (.unsupported (.loopStep op))

/-- Appends the values that the counter of a loop goes through, in reverse. -/
def loopValues (t : Target) (range : LoopRange ι φ) : Nat → Value ι φ → List (Value ι φ) →
    Except Fault (List (Value ι φ))
  | fuel, current, passed => do
      if ← continues t range current then
        match fuel with
        | 0 => .error (.unsupported (.loopTasks maxLoopTasks))
        | fuel + 1 => loopValues t range fuel (← nextValue t range current) (current :: passed)
      else return passed

/-- Starts the tasks of a loop, one per value of the counter. Those started already
are given latest first. -/
def startIterations (state : State) (task : ThreadId → BlockTask) (var : String) (type : CType) :
    List (Value ι φ) → List State → MachineM ι φ (List State)
  | [], started => return started.reverse
  | v :: rest, started => do
      let thread ← onTeams Teams.newThread
      onTeams fun teams => (PUnit.unit, teams.inherit state.thread thread)
      let iteration ← startBlock state (task thread)
      let address ← declareLocal iteration.frame var type
      writeAs address type (.singleton v)
      startIterations state task var type rest (iteration :: started)

/-- Splits a parallel loop into tasks. Only the first thread of a team makes them; the
others just go on. -/
def startLoop (state : State) (node : NodeId) (clauses : List Clause) (var : String)
    (init : NodeId) (condOp : BinOp) (bound : NodeId) (stepOp : BinOp) (step body : NodeId) :
    MachineM ι φ (List State) := do
  let barrier := Barrier.construct node
  let successor ← check (Control.afterStmt (← get).outline node)
  let goesOn := state.goto successor
  let goesOn := if .noWait ∈ clauses then goesOn else goesOn.waitingOn barrier
  if (← get).teams.threadNum state.thread ≠ 0 then return [goesOn]
  else
    let type := (← resolveName state.frame var).type
    let bound ← check (singleValue "loop bound" (← eval state bound))
    let step ← check (singleValue "loop step" (← eval state step))
    let start ← check (singleValue "loop start" (← eval state init))
    let target := (← get).settings.target
    let passed ← check (loopValues target ⟨condOp, bound, stepOp, step⟩ maxLoopTasks start [])
    let task (thread : ThreadId) : BlockTask :=
      ⟨body, thread, barrier, .die, .invoke, Clause.privatized clauses⟩
    startIterations state task var type passed.reverse [goesOn]

/-- Enters a critical section, or waits for the lock. -/
def enterCritical (state : State) (node block : NodeId) : MachineM ι φ (List State) := do
  if (← get).teams.isClear .critical then
    let resume ← check (Control.afterStmt (← get).outline node)
    return [← startBlock state ⟨block, state.thread, .critical, .resume, resume, []⟩]
  else return [state.waitingOn .critical]

/-- Takes a task off a barrier at the end of its block. `leave` is false when the task
left the barrier already through another continuation of the same address. -/
def release (state : State) (kont : Continuation) (barrier : Barrier) (mode : ReleaseMode)
    (leave : Bool) : MachineM ι φ (List State) := do
  if leave then onTeams fun teams => (PUnit.unit, teams.leaveBarrier barrier)
  let resumed : State := ⟨kont.control, kont.frame, kont.parent, state.thread, none⟩
  match mode with
  | .die =>
      let p := (← get).program
      let region := match barrier with
        | .construct node => p.construct? node
        | .critical => none
      match leave, region with
      | true, some (.parallel ..) =>
          onTeams fun teams => (PUnit.unit, teams.retire state.thread)
      | _, _ => pure ⟨⟩
      return []
  | .wait =>
      if leave then onTeams fun teams => (PUnit.unit, teams.leaveTeam state.thread)
      return [resumed.waitingOn barrier]
  | .resume => return [resumed]

end Machine

end CoreC
