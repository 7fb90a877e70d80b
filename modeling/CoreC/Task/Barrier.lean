import CoreC.Program.Construct

/-! # Threads and barriers -/

namespace CoreC

/-- Number of a simulated thread; zero is the first one. -/
abbrev ThreadId := Nat

/-- What a task may wait for. -/
inductive Barrier where
  /-- The one lock that all critical sections share. -/
  | critical
  /-- The end of a parallel or loop construct. -/
  | construct (node : NodeId)
  deriving DecidableEq

namespace Barrier

def text : Barrier → String
  | .critical => "Critical"
  | .construct node => "Construct(" ++ toString node ++ ")"

/-- A number of its own for each barrier. -/
def code : Barrier → Nat
  | .critical => 0
  | .construct node => node + 1

end Barrier

/-- What a task does after it left a barrier. -/
inductive ReleaseMode where
  /-- Waits until all others left. -/
  | wait
  | die
  /-- Goes on at once. -/
  | resume
  deriving DecidableEq

/-- A number of its own for each mode. -/
def ReleaseMode.code : ReleaseMode → Nat
  | .wait => 0
  | .die => 1
  | .resume => 2

end CoreC
