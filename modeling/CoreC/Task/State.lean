import CoreC.Kont.Basic

/-! # Task states -/

namespace CoreC

/-- Where one task stands. Memory is shared by all tasks and is not part of it. -/
structure State where
  control : Control
  frame : FrameId
  kont : KontAddress
  thread : ThreadId
  barrier : Option Barrier := none
  deriving DecidableEq

namespace State

/-- The task at another control, waiting for nothing. -/
def goto (s : State) (control : Control) : State := { s with control, barrier := none }

def waitingOn (s : State) (barrier : Barrier) : State := { s with barrier := some barrier }

def awake (s : State) : State := { s with barrier := none }

def text (s : State) : String :=
  let waiting := match s.barrier with
    | some barrier => " waiting on " ++ barrier.text
    | none => ""
  "[tid " ++ toString s.thread ++ " " ++ s.control.text ++ " env " ++ toString s.frame ++
    " kont " ++ toString s.kont ++ "]" ++ waiting

end State

end CoreC
