import CoreC.Program.Control
import CoreC.Task.Barrier

/-! # Continuations

A continuation says what becomes of a computed value and where control resumes. It
is stored under an address; the address zero stands for the end of the task.
-/

namespace CoreC

abbrev KontAddress := Nat

/-- The address that ends a task. -/
def halt : KontAddress := 0

/-- What becomes of the value. -/
inductive KontKind where
  /-- It is written to every destination. -/
  | assign (dest : List Address) (scalar : Scalar)
  /-- It is dropped: the call was a statement. -/
  | call
  | branch (thenBlock : NodeId) (elseBlock : Option NodeId)
  | loop (body : NodeId)
  /-- It goes on to the caller, converted to the type that the function returns. -/
  | ret (scalar : Option Scalar)
  | release (barrier : Barrier) (mode : ReleaseMode)
  deriving DecidableEq

/-- A number of its own for each kind, whatever it carries. -/
def KontKind.code : KontKind → Nat
  | .assign .. => 0
  | .call => 1
  | .branch .. => 2
  | .loop _ => 3
  | .ret _ => 4
  | .release .. => 5

structure Continuation where
  kind : KontKind
  control : Control
  frame : FrameId
  parent : KontAddress
  deriving DecidableEq

end CoreC
