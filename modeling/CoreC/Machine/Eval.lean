import CoreC.Machine.Library

/-! # Evaluation

An expression evaluates to a set of values, and what can be assigned to, to a list of
addresses. Functions of the program are not called here: the machine steps into them
from a statement or from an expression that stands alone.
-/

namespace CoreC

def Value.target {ι φ : Type} [Domain ι φ] : Value ι φ → Except Fault Address
  | .pointer address _ => .ok address
  | .uninitialized _ => .error (.uninitialized .dereference)
  | other => .error (.typeMismatch (.pointerExpected other.text))

namespace Machine

variable {ι φ : Type} [DecidableEq ι] [BEq φ] [Domain ι φ]

/-- Reads objects of a type. An array gives the address of its first element. -/
def load (addresses : List Address) (type : CType) : MachineM ι φ (ValueSet ι φ) := do
  let m ← get
  if type.isArray then
    let step ← check (m.layouts.sizeOf type.element)
    return .ofList (addresses.map (.pointer · step))
  else if type.isAggregate then throw (.typeMismatch (.aggregateValue type.base))
  else
    let scalar ← check (m.layouts.scalar type)
    check (addresses.foldlM (fun values address =>
      (m.store.read address scalar).map values.union) .empty)

def literalAddress (node : NodeId) (text : String) : MachineM ι φ Address := do
  match (← get).literals[node]? with
  | some address => return address
  | none =>
      let address ← onStore (Store.literal node (Text.toUtf8 text))
      modify fun m => { m with literals := m.literals.insert node address }
      return address

def literalValue (node : NodeId) (value : Literal) : MachineM ι φ (ValueSet ι φ) := do
  let target := (← get).settings.target
  match value with
  | .int n type => return .singleton (.ofInt target type n)
  | .char code => return .singleton (.ofInt target .int (Number.signedWord 8 code.toNat))
  | .float x kind => return .singleton (.ofDouble kind x)
  | .str text =>
      let address ← literalAddress node text
      return .singleton (.pointer address (target.intWidth .char))

/-- The name of the one function that the values of a callee stand for. -/
def calleeName : List (Value ι φ) → Except Fault String
  | [] => .error (.unsupported .noCallee)
  | [.function name] => .ok name
  | [.uninitialized _] => .error (.uninitialized .functionPointer)
  | [other] => .error (.typeMismatch (.functionExpected other.text))
  | _ => .error (.unsupported .severalCallees)

/-- The function of the program that a call calls; `none` for a library function. -/
def userFunction (eval : NodeId → MachineM ι φ (ValueSet ι φ)) (frame : FrameId)
    (callee : NodeId) : MachineM ι φ (Option NodeId) := do
  let m ← get
  let throughValue : MachineM ι φ (Option NodeId) := do
    let name ← check (calleeName (← eval callee).items)
    match (← get).outline.function? name with
    | some function => return some function
    | none => throw (.undefinedFunction name)
  match m.program.construct? callee with
  | some (.id name) =>
      if (m.env.lookup frame name).isNone then return m.outline.function? name
      else throughValue
  | _ => throughValue

/-- The places that an index leads to from some starts, without repetition. -/
def indexedAddresses (m : Machine ι φ) (size : Nat) (bases indices : List (Value ι φ)) :
    Except Fault (List Address) :=
  bases.foldlM (fun found base => do
    let start ← base.target
    indices.foldlM (fun found index => do
      let n ← index.exactInt
      let delta := Number.signedWord 64 n * Number.displacement size
      let address ← m.store.movePointer start delta
      return if address ∈ found then found else found ++ [address]) found) []

/-- The places that a construct may stand for, given how to evaluate what is below
it. -/
def addressesOf (eval : NodeId → MachineM ι φ (ValueSet ι φ))
    (addresses : NodeId → MachineM ι φ (List Address)) (state : State) (node : NodeId)
    (construct : Construct) : MachineM ι φ (List Address) :=
  match construct with
  | .id name => do return [(← resolveName state.frame name).address]
  | .unary .deref operand => do check ((← eval operand).items.mapM Value.target)
  | .index array position => do
      let element ← staticType state.frame node
      let size ← check ((← get).layouts.sizeOf element)
      let bases ← eval array
      let indices ← eval position
      check ((← get).indexedAddresses size bases.items indices.items)
  | .cast _ operand => addresses operand
  | .literal (.str text) => do return [← literalAddress node text]
  | other => throw (.unsupported (.notLvalue other.tag))

def addressValue (eval : NodeId → MachineM ι φ (ValueSet ι φ))
    (addresses : NodeId → MachineM ι φ (List Address)) (state : State) (operand : NodeId) :
    MachineM ι φ (ValueSet ι φ) := do
  let m ← get
  let designator := match m.program.construct? operand with
    | some (.id name) => m.namesFunction state.frame name
    | _ => false
  if designator then eval operand
  else
    let type ← staticType state.frame operand
    let step ← check ((← get).layouts.step type)
    return .ofList ((← addresses operand).map (.pointer · step))

/-- The values of a construct, given how to evaluate what is below it. -/
def valuesOf (eval : NodeId → MachineM ι φ (ValueSet ι φ))
    (addresses : NodeId → MachineM ι φ (List Address)) (state : State) (node : NodeId)
    (construct : Construct) : MachineM ι φ (ValueSet ι φ) :=
  match construct with
  | .literal value => literalValue node value
  | .id name => do
      if (← get).namesFunction state.frame name then return .singleton (.function name)
      else
        let binding ← resolveName state.frame name
        load [binding.address] binding.type
  | .binary op left right => do
      let lefts ← eval left
      let rights ← eval right
      let target := (← get).settings.target
      check (lefts.lift₂ rights (Value.operate target op))
  | .unary .addrOf operand => addressValue eval addresses state operand
  | .unary .deref operand => do
      let type ← staticType state.frame node
      if type.isFunction then eval operand
      else load (← addressesOf eval addresses state node construct) type
  | .unary op operand => do
      let values ← eval operand
      check (values.flatMap (Value.operateUnary (← get).settings.target op))
  | .cast type operand => do
      let values ← eval operand
      if type.isVoid then return values
      else
        let m ← get
        let scalar ← check (m.layouts.scalar type)
        check (m.store.convert scalar values)
  | .sizeOf type => do
      let m ← get
      let size ← check (m.layouts.sizeOf type)
      return .singleton (.ofInt m.settings.target .unsignedLong size)
  | .index .. => do
      let type ← staticType state.frame node
      load (← addressesOf eval addresses state node construct) type
  | .call callee args => do
      match ← userFunction eval state.frame callee with
      | some function =>
          let name := match (← get).program.construct? function with
            | some (.funcDef name ..) => name
            | _ => toString function
          throw (.unsupported (.nestedCall name))
      | none =>
          match (← get).program.construct? callee with
          | some (.id name) => callLibrary eval state node name args
          | _ => throw (.unsupported .calleeNotName)
  | other => throw (.unsupported (.notExpression other.tag))

mutual

/-- The values of an expression that nests at most `fuel` deep. -/
def evalWithin (state : State) : Nat → NodeId → MachineM ι φ (ValueSet ι φ)
  | 0, node => throw (.unsupported (.deepExpression node))
  | fuel + 1, node => do
      valuesOf (evalWithin state fuel) (addressesWithin state fuel) state node (← constructAt node)

def addressesWithin (state : State) : Nat → NodeId → MachineM ι φ (List Address)
  | 0, node => throw (.unsupported (.deepExpression node))
  | fuel + 1, node => do
      addressesOf (evalWithin state fuel) (addressesWithin state fuel) state node
        (← constructAt node)

end

def eval (state : State) (node : NodeId) : MachineM ι φ (ValueSet ι φ) := do
  evalWithin state (← get).depth node

def addresses (state : State) (node : NodeId) : MachineM ι φ (List Address) := do
  addressesWithin state (← get).depth node

def copyObject (source dest : Address) (type : CType) : MachineM ι φ PUnit := do
  let layout ← check ((← get).layouts.layout type)
  onStore (Store.copyUnits source dest layout.flatten 0)

def writeAs (address : Address) (type : CType) (values : ValueSet ι φ) : MachineM ι φ PUnit := do
  let m ← get
  let scalar ← check (m.layouts.scalar type)
  let converted ← check (m.store.convert scalar values)
  onStore (Store.write address converted scalar false)

end Machine

end CoreC
