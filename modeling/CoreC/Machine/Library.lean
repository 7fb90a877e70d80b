import CoreC.Machine.Format
import CoreC.Machine.StaticType

/-! # Library functions

The functions that the machine provides where the program defines none of the same
name. A heap block whose address is cast at once to a pointer to some type is laid
out as repetitions of that type; any other block is a run of single bytes.
-/

namespace CoreC.Machine

variable {ι φ : Type} [DecidableEq ι] [BEq φ] [Domain ι φ]

/-- The largest heap block; larger requests give the null pointer. -/
def maxBlock : Nat := 2 ^ 20

def intValue (n : Int) : MachineM ι φ (ValueSet ι φ) := do
  return .singleton (.ofInt (← get).settings.target .int n)

/-- The count that an argument stands for: one number, not negative. -/
def countOf (function : String) (values : ValueSet ι φ) : Except Fault Nat := do
  match ← values.items.mapM Value.exactInt with
  | [n] =>
      if 0 ≤ n then return n.toNat else .error (.unsupported (.negativeCount function n))
  | _ => .error (.unsupported (.severalCounts function))

/-- The type that the result of a call is cast to a pointer to. -/
def blockElement? (m : Machine ι φ) (call : NodeId) : Option CType :=
  match (m.outline.parent? call).bind m.program.construct? with
  | some (.cast type _) =>
      if type.isPointer then type.pointee?.filter fun element => !element.isVoid else none
  | _ => none

def blockLayout (m : Machine ι φ) (call : NodeId) (size : Nat) : Layout :=
  let width := m.settings.target.intWidth .char
  let bytes : Layout := ⟨[⟨width, .int .unsignedChar⟩], size / max width 1⟩
  match (m.blockElement? call).map m.layouts.layout with
  | some (.ok layout) =>
      if layout.count = 1 ∧ 0 < layout.stride ∧ size % layout.stride = 0 then
        ⟨layout.units, size / layout.stride⟩
      else bytes
  | _ => bytes

/-- A heap block of `size` bytes, cleared if `zeroed`. -/
def allocateBlock (call : NodeId) (size : Nat) (zeroed : Bool) : MachineM ι φ (ValueSet ι φ) := do
  if size = 0 ∨ maxBlock < size then return .singleton (.null 1)
  else
    let layout := (← get).blockLayout call size
    let address ← onStore (Store.malloc call layout)
    if zeroed then onStore (Store.zeroFill address.base)
    return .singleton (.pointer address 1)

/-- Frees what a value points to. Zero counts as the null pointer. -/
def freeValue (v : Value ι φ) : MachineM ι φ PUnit :=
  match v with
  | .pointer address _ => onStore (Store.free address)
  | .uninitialized _ => throw (.uninitialized .freeArgument)
  | .int .. => do
      if (← check v.exactInt) = 0 then return ⟨⟩
      else throw (.typeMismatch (.pointerExpected v.text))
  | other => throw (.typeMismatch (.pointerExpected other.text))

/-- Prints formatted text. The format has to be a literal. -/
def print (eval : NodeId → MachineM ι φ (ValueSet ι φ)) (state : State) (call : NodeId) :
    List NodeId → MachineM ι φ (ValueSet ι φ)
  | [] => throw (.printf .noFormat)
  | format :: args => do
      match (← get).program.construct? format with
      | some (.literal (.str text)) =>
          let values ← args.mapM eval
          let printed ← check ((← get).store.format text values)
          modify fun m =>
            { m with output := m.output.print printed state.thread (m.program.location call) }
          intValue printed.length
      | _ => throw (.printf .formatNotLiteral)

def callLibrary (eval : NodeId → MachineM ι φ (ValueSet ι φ)) (state : State) (call : NodeId)
    (name : String) (args : List NodeId) : MachineM ι φ (ValueSet ι φ) :=
  match name, args with
  | "printf", args => print eval state call args
  | "malloc", [size] => do
      let bytes ← check (countOf name (← eval size))
      allocateBlock call bytes false
  | "calloc", [count, size] => do
      let elements ← check (countOf name (← eval count))
      let bytes ← check (countOf name (← eval size))
      allocateBlock call (elements * bytes) true
  | "free", [pointer] => do
      (← eval pointer).items.forM freeValue
      intValue 0
  | "__VERIFIER_nondet_int", [] => do
      let target := (← get).settings.target
      return .ofList ([0, 1, 2].map (Value.ofInt target .int))
  | "omp_get_thread_num", [] => do intValue ((← get).teams.threadNum state.thread)
  | "omp_get_num_threads", [] => do intValue ((← get).teams.teamSize state.thread)
  | "omp_set_num_threads", [count] => do
      let n ← check (countOf name (← eval count))
      onTeams fun teams => (PUnit.unit, teams.setNumThreads n)
      intValue 0
  | "malloc", _ | "free", _ | "omp_set_num_threads", _ =>
      throw (.argumentCount name 1 args.length)
  | "calloc", _ => throw (.argumentCount name 2 args.length)
  | "__VERIFIER_nondet_int", _ | "omp_get_thread_num", _ | "omp_get_num_threads", _ =>
      throw (.argumentCount name 0 args.length)
  | _, _ => throw (.undefinedFunction name)

end CoreC.Machine
