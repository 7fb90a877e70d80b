import CoreC.Machine.Run

/-! # Traces

A run in which every step is recorded. Nothing is swept, and only the number of
steps asked for limits it.
-/

namespace CoreC

structure TraceStep where
  next : List State
  generation : Nat
  konts : Nat
  frames : Nat
  deriving DecidableEq

inductive TraceEnd where
  | limit
  | done
  | fault (fault : Fault)
  deriving DecidableEq

namespace Machine

variable {ι φ : Type} [DecidableEq ι] [BEq φ] [Domain ι φ]

/-- What a step that led to some tasks left behind. -/
def record (m : Machine ι φ) (next : List State) : TraceStep :=
  ⟨next, m.store.generation, m.konts.size, m.env.size⟩

/-- Records up to a number of steps after those recorded already, latest first. -/
def traceFrom : Nat → Machine ι φ → Schedule → List TraceStep →
    List TraceStep × TraceEnd × Machine ι φ × Schedule
  | 0, m, s, steps => (steps.reverse, .limit, m, s)
  | remaining + 1, m, s, steps =>
      match s.next m.teams with
      | .error fault => (steps.reverse, .fault fault, m, s)
      | .ok (none, s) => (steps.reverse, .done, m, s)
      | .ok (some state, s) =>
          match step state m with
          | .error fault m => (steps.reverse, .fault fault, m, s)
          | .ok states m =>
              traceFrom remaining m (s.addAll m.teams m.store.generation states)
                (m.record states :: steps)

def trace (m : Machine ι φ) (first : State) (steps : Nat) :
    List TraceStep × TraceEnd × Machine ι φ × Schedule :=
  let s := Schedule.new (m.settings.update = .weak)
  traceFrom steps m (s.add m.teams m.store.generation first) []

end Machine

end CoreC
