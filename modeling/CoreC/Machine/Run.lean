import CoreC.Domain.Bounded
import CoreC.Domain.Exact
import CoreC.Machine.Step
import CoreC.Report
import CoreC.Task.Schedule

/-! # Runs

A run steps the tasks of its schedule until none is left, one of them fails, no task
can go on, or the limit is reached.
-/

namespace CoreC

namespace Machine

variable {ι φ : Type} [DecidableEq ι] [BEq φ] [Domain ι φ]

/-- Steps between two sweeps of continuations. -/
def sweepInterval : Nat := 1024

def sweep (m : Machine ι φ) (s : Schedule) : Machine ι φ :=
  { m with konts := m.konts.sweep (s.pending.map (·.kont)) }

/-- A sweep is due when addresses are not shared and a full interval has passed. -/
def sweepDue (m : Machine ι φ) (steps : Nat) : Bool :=
  m.settings.konts = .concrete && steps % sweepInterval = 0

/-- Steps tasks until the schedule is done, something fails, or `remaining` steps are
used up. -/
def explore : Nat → Machine ι φ → Schedule → Option Fault × Machine ι φ × Schedule
  | remaining, m, s =>
      match s.next m.teams with
      | .error fault => (some fault, m, s)
      | .ok (none, s) => (none, m, s)
      | .ok (some state, s) =>
          match remaining with
          | 0 => (some (.stepLimit m.settings.maxSteps), m, s)
          | remaining + 1 =>
              match step state m with
              | .error fault m => (some fault, m, s)
              | .ok states m =>
                  let s := s.addAll m.teams m.store.generation states
                  let m := if m.sweepDue (m.settings.maxSteps - remaining) then m.sweep s else m
                  explore remaining m s

def runAll (m : Machine ι φ) : Option Fault × Machine ι φ × Schedule :=
  let s := Schedule.new (m.settings.update = .weak)
  match start m with
  | .error fault m => (some fault, m, s)
  | .ok state m => explore m.settings.maxSteps m (s.add m.teams m.store.generation state)

def report (m : Machine ι φ) : Report :=
  let (fault, m, s) := m.runAll
  { output := m.output.contents
    memorySafe := !fault.any Fault.isMemoryFault
    fault
    returned := m.returned
    generated := s.generated
    matched := s.matched
    evaluated := s.evaluated }

end Machine

def runIn (ι φ : Type) [DecidableEq ι] [BEq φ] [Domain ι φ] (p : Program) (settings : Settings) :
    Report :=
  match (Machine.new p settings : Except Fault (Machine ι φ)) with
  | .ok m => m.report
  | .error fault => .ofFault fault

def run (p : Program) (settings : Settings) : Report :=
  match settings.precision with
  | .concrete => runIn Int Double p settings
  | .sign => runIn Sign Sign p settings
  | .bounded => runIn Bounded Sign p settings

end CoreC
