import CoreC.Settings
import CoreC.Kont.Basic

/-! # Addresses for continuations

The concrete policy gives every continuation an address of its own. The others give
the same address to continuations that agree in kind, thread, and the point where
they resume; `p4f` also looks at the frame. Continuations that leave a barrier must
agree in the barrier and the mode as well, so that no thread resumes for another.
-/

namespace CoreC

/-- What continuations of one address agree in. -/
structure KontKey where
  control : Control
  frame : Option FrameId
  kind : Nat
  release : Option (Barrier × ReleaseMode)
  thread : ThreadId
  deriving DecidableEq

namespace KontKey

def controlCode : Control → List Nat
  | .stmt block index => [0, block, index]
  | .expr node => [1, node, 0]
  | .invoke => [2, 0, 0]

def releaseCode : Option (Barrier × ReleaseMode) → List Nat
  | none => [0, 0]
  | some (barrier, mode) => [barrier.code + 1, mode.code]

def code (key : KontKey) : List Nat :=
  controlCode key.control ++
    [key.frame.elim 0 (· + 1), key.kind] ++ releaseCode key.release ++ [key.thread]

end KontKey

structure KontAllocator where
  policy : KontPolicy
  next : KontAddress
  /-- Addresses given out, by the numbers of their keys. -/
  byKey : Std.TreeMap (List Nat) KontAddress

namespace KontAllocator

def new (policy : KontPolicy) : KontAllocator := ⟨policy, halt + 1, ∅⟩

/-- Whether an address may hold several continuations. -/
def merges (a : KontAllocator) : Bool := a.policy != .concrete

/-- The key of a continuation that a thread pushes, if addresses are shared. -/
def key? (a : KontAllocator) (kont : Continuation) (thread : ThreadId) : Option KontKey :=
  let release := match kont.kind with
    | .release barrier mode => some (barrier, mode)
    | _ => none
  match a.policy with
  | .concrete => none
  | .zeroCfa => some ⟨kont.control, none, kont.kind.code, release, thread⟩
  | .p4f => some ⟨kont.control, some kont.frame, kont.kind.code, release, thread⟩

def allocate (a : KontAllocator) (kont : Continuation) (thread : ThreadId) :
    KontAddress × KontAllocator :=
  match a.key? kont thread with
  | none => (a.next, { a with next := a.next + 1 })
  | some key =>
      match a.byKey[key.code]? with
      | some address => (address, a)
      | none => (a.next, { a with next := a.next + 1, byKey := a.byKey.insert key.code a.next })

end KontAllocator

end CoreC
