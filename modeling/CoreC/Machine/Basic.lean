import CoreC.Kont.Allocator
import CoreC.Kont.Table
import CoreC.Memory.Environment
import CoreC.Memory.Object
import CoreC.Output
import CoreC.Task.State
import CoreC.Task.Team

/-! # The machine

Everything that the tasks of a run share. Operations of the machine may fail; what
they changed before they failed stays changed.
-/

namespace CoreC

structure Machine (ι φ : Type) where
  outline : Outline
  settings : Settings
  layouts : Layouts
  store : Store ι φ
  env : Environment
  teams : Teams
  allocator : KontAllocator
  konts : KontTable
  output : Output
  /-- Arrays made for string literals, by node. -/
  literals : Std.TreeMap NodeId Address
  returned : Option String

abbrev MachineM (ι φ : Type) := EStateM Fault (Machine ι φ)

namespace Machine

variable {ι φ : Type} {α : Type}

def new (p : Program) (settings : Settings) : Except Fault (Machine ι φ) := do
  let outline ← Outline.ofProgram p
  return {
    outline, settings
    layouts := .ofProgram settings.target p
    store := .new settings.target settings.update settings.heap
    env := .new settings.frames
    teams := .new settings.teams
    allocator := .new settings.konts
    konts := .empty
    output := .empty
    literals := ∅
    returned := none }

def program (m : Machine ι φ) : Program := m.outline.program

/-- Fails where a computation without effects failed. -/
def check (result : Except Fault α) : MachineM ι φ α :=
  match result with
  | .ok a => pure a
  | .error fault => throw fault

def onStore (act : StoreM ι φ α) : MachineM ι φ α := fun m =>
  match act m.store with
  | .ok a store => .ok a { m with store }
  | .error fault store => .error fault { m with store }

def onEnv (act : Environment → Except Fault (α × Environment)) : MachineM ι φ α := fun m =>
  match act m.env with
  | .ok (a, env) => .ok a { m with env }
  | .error fault => .error fault m

def onTeams (act : Teams → α × Teams) : MachineM ι φ α := fun m =>
  let (a, teams) := act m.teams
  .ok a { m with teams }

def constructAt (id : NodeId) : MachineM ι φ Construct := do
  match (← get).program.construct? id with
  | some construct => return construct
  | none => throw (.shape (.danglingNode id))

def newFrame (scope : NodeId) (parent : Option FrameId) : MachineM ι φ FrameId :=
  onEnv fun env =>
    let ((id, _), env) := env.push scope parent
    .ok (id, env)

/-- Memory for a binding. A second request for the same binding makes its object a
summary. -/
def allocateBinding (binding : Binding) : MachineM ι φ Address := do
  let layout ← check ((← get).layouts.layout binding.type)
  onStore (Store.allocate binding.base layout)

/-- The binding of a name, made now if a block around declares the name. -/
def resolveName (frame : FrameId) (name : String) : MachineM ι φ Binding := do
  let outline := (← get).outline
  let (binding, fresh) ← onEnv fun env =>
    env.resolve frame name fun scope => outline.declaredType? scope name
  if fresh then
    let _ ← allocateBinding binding
  return binding

/-- Whether a name stands for a function and not for an object. -/
def namesFunction (m : Machine ι φ) (frame : FrameId) (name : String) : Bool :=
  (m.env.lookup frame name).isNone && (m.outline.function? name).isSome

def pushKont (kont : Continuation) (thread : ThreadId) : MachineM ι φ KontAddress := fun m =>
  let (address, allocator) := m.allocator.allocate kont thread
  .ok address { m with allocator, konts := m.konts.write address kont allocator.merges }

/-- Evaluates an expression under a new continuation. -/
def descend (state : State) (expr : NodeId) (kind : KontKind) : MachineM ι φ (List State) := do
  let kont ← pushKont ⟨kind, state.control, state.frame, state.kont⟩ state.thread
  return [⟨.expr expr, state.frame, kont, state.thread, none⟩]

end Machine

end CoreC
