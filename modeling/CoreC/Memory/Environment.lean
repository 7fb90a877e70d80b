import CoreC.Settings
import CoreC.Program.Construct

/-! # Environments

Frames hold the names bound by one activation of a block. A task refers to its frame
by number; a name is looked up along the parents of the frame and then among the
globals. The body of a function starts a chain of its own.

A scope of the language covers its whole block, so a jump may pass a declaration. A
name that is not bound yet is therefore bound when it is first used, if one of the
blocks around declares it.
-/

namespace CoreC

structure Binding where
  frame : FrameId
  name : String
  type : CType
  deriving DecidableEq

def Binding.base (b : Binding) : Base := .frame b.frame b.name

def Binding.address (b : Binding) : Address := ⟨b.base, 0⟩

/-- Names bound by one activation of a block. -/
structure Frame where
  scope : NodeId
  parent : Option FrameId
  types : List (String × CType)
  deriving DecidableEq

structure Environment where
  policy : FramePolicy
  /-- Frames by number. Numbers are given out in order, from zero. -/
  frames : Std.TreeMap FrameId Frame
  global : Option FrameId
  /-- The one frame of each block, when activations share frames. -/
  byScope : Std.TreeMap NodeId FrameId
  /-- Frames made by jumping into a block, by the frame jumped from. -/
  jumps : Std.TreeMap FrameId (List (NodeId × FrameId))

namespace Environment

def new (policy : FramePolicy) : Environment := ⟨policy, ∅, none, ∅, ∅⟩

/-- The frame that a further activation of a block uses again. -/
def shared? (e : Environment) (scope : NodeId) : Option FrameId :=
  match e.policy with
  | .concrete => none
  | .zeroCfa => e.byScope[scope]?

/-- Activates a block. Returns the frame and whether it was in use before. -/
def push (e : Environment) (scope : NodeId) (parent : Option FrameId) :
    (FrameId × Bool) × Environment :=
  match e.shared? scope with
  | some id => ((id, true), e)
  | none =>
      let id := e.frames.size
      let byScope := match e.policy with
        | .concrete => e.byScope
        | .zeroCfa => e.byScope.insert scope id
      ((id, false), { e with frames := e.frames.insert id ⟨scope, parent, []⟩, byScope })

def frame (e : Environment) (id : FrameId) : Except Fault Frame :=
  match e.frames[id]? with
  | some frame => .ok frame
  | none => .error (.unsupported (.unknownFrame id))

def setGlobal (e : Environment) (id : FrameId) : Except Fault Environment :=
  match e.global with
  | some _ => .error (.unsupported .globalSetTwice)
  | none => (e.frame id).map fun _ => { e with global := some id }

/-- Binds a name in a frame. A name that is bound there already keeps its binding.
Returns the binding and whether it is new. -/
def declare (e : Environment) (id : FrameId) (name : String) (type : CType) :
    Except Fault ((Binding × Bool) × Environment) := do
  let frame ← e.frame id
  match frame.types.lookup name with
  | some bound => return ((⟨id, name, bound⟩, false), e)
  | none =>
      let types := (name, type) :: frame.types
      return ((⟨id, name, type⟩, true), { e with frames := e.frames.insert id { frame with types } })

/-- The frames from a frame outward, each with its number. A number that no frame has
ends the chain. -/
def chain (e : Environment) : Nat → FrameId → List (FrameId × Option Frame)
  | 0, _ => []
  | fuel + 1, id =>
      match e.frames[id]? with
      | none => [(id, none)]
      | some frame =>
          (id, some frame) :: (match frame.parent with
            | some parent => e.chain fuel parent
            | none => [])

def chainOf (e : Environment) (id : FrameId) : List (FrameId × Option Frame) :=
  e.chain (e.frames.size + 1) id

def lookupGlobal (e : Environment) (name : String) : Option Binding := do
  let id ← e.global
  let frame ← e.frames[id]?
  let type ← frame.types.lookup name
  return ⟨id, name, type⟩

/-- The binding of a name along a chain of frames, then among the globals. -/
def lookupAlong (e : Environment) (name : String) : List (FrameId × Option Frame) → Option Binding
  | [] => e.lookupGlobal name
  | (_, none) :: _ => none
  | (id, some frame) :: outward =>
      match frame.types.lookup name with
      | some type => some ⟨id, name, type⟩
      | none => e.lookupAlong name outward

def lookup (e : Environment) (id : FrameId) (name : String) : Option Binding :=
  e.lookupAlong name (e.chainOf id)

/-- The first frame of a chain for which `found` has an answer. -/
def findAlong {α : Type} (found : Frame → Option α) :
    List (FrameId × Option Frame) → Except Fault (Option (FrameId × α))
  | [] => .ok none
  | (id, none) :: _ => .error (.unsupported (.unknownFrame id))
  | (id, some frame) :: outward =>
      match found frame with
      | some a => .ok (some (id, a))
      | none => findAlong found outward

/-- The binding of a name seen from a frame. A name that is not bound yet is bound in
the nearest frame whose block declares it. -/
def resolve (e : Environment) (id : FrameId) (name : String) (declared : NodeId → Option CType) :
    Except Fault ((Binding × Bool) × Environment) :=
  match e.lookup id name with
  | some binding => .ok ((binding, false), e)
  | none => do
      match ← findAlong (fun frame => declared frame.scope) (e.chainOf id) with
      | some (holder, type) => e.declare holder name type
      | none => .error (.undefinedVariable name)

def jumpFrame? (e : Environment) (anchor : FrameId) (block : NodeId) : Option FrameId :=
  (e.jumps.getD anchor []).lookup block

def keepJump (e : Environment) (anchor : FrameId) (block : NodeId) (id : FrameId) : Environment :=
  { e with jumps := e.jumps.insert anchor ((block, id) :: e.jumps.getD anchor []) }

def size (e : Environment) : Nat := e.frames.size

end Environment

end CoreC
