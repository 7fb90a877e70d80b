import CoreC.Machine.Basic

/-! # Types of expressions

The type of an expression follows from declarations and from the types of its parts.
-/

namespace CoreC

def BinOp.resultType (op : BinOp) (left right : CType) : Except Fault CType :=
  if op.isRelational then .ok .int
  else
    match left.isPointer || left.isArray, right.isPointer || right.isArray with
    | true, true =>
        if op = .sub then .ok (.integer .long) else .error (.typeMismatch (.pointerPair op))
    | true, false => .ok left.decayed
    | false, true => .ok right.decayed
    | false, false =>
        match left.base, right.base with
        | .floating a, .floating b => .ok (.floating (a.wider b))
        | .floating _, _ => .ok left
        | _, .floating _ => .ok right
        | .integer a, .integer b => .ok (.integer (a.common b))
        | _, _ => .error (.typeMismatch (.arithmeticTypes left.base op right.base))

def UnOp.resultType (op : UnOp) (type : CType) : Except Fault CType :=
  match op with
  | .deref =>
      if type.isFunction then .ok type
      else
        match type.pointee? with
        | some pointee => .ok pointee
        | none => .error (.typeMismatch (.dereference type.base))
  | .addrOf => .ok (if type.isFunctionDesignator then type.pointerTo else type.addressOf)
  | .not => .ok .int
  | .neg | .plus | .bitNot => .ok type

def Literal.type : Literal → CType
  | .int _ type => .integer type
  | .char _ => .int
  | .float _ kind => .floating kind
  | .str _ => CType.char.pointerTo

def libraryReturnType (name : String) : CType :=
  if name = "malloc" ∨ name = "calloc" then CType.void.pointerTo
  else if name = "free" ∨ name = "omp_set_num_threads" then .void
  else .int

namespace Machine

variable {ι φ : Type}

def returnType (function : NodeId) : MachineM ι φ CType := do
  match (← get).program.construct? function with
  | some (.funcDef _ returns _ _) => return returns
  | _ => throw (.unsupported (.notFunction function))

/-- The type of what a call returns; pointers to functions carry no signature and
count as returning `int`. -/
def callType (typeOf : NodeId → MachineM ι φ CType) (frame : FrameId) (callee : NodeId) :
    MachineM ι φ CType := do
  let m ← get
  let throughValue : MachineM ι φ CType := do
    let type ← typeOf callee
    if type.base = .function then return .int
    else throw (.typeMismatch (.callee type.base))
  match m.program.construct? callee with
  | some (.id name) =>
      if (m.env.lookup frame name).isSome then throughValue
      else
        match m.outline.function? name with
        | some function => returnType function
        | none => return libraryReturnType name
  | _ => throughValue

/-- The type of a construct, given the types of the nodes below it. -/
def typeOfConstruct (typeOf : NodeId → MachineM ι φ CType) (frame : FrameId) :
    Construct → MachineM ι φ CType
  | .literal value => return value.type
  | .id name => do
      if (← get).namesFunction frame name then return .plain .function
      else return (← resolveName frame name).type
  | .binary op left right => do
      let leftType ← typeOf left
      let rightType ← typeOf right
      check (op.resultType leftType rightType)
  | .unary op operand => do check (op.resultType (← typeOf operand))
  | .cast type _ => return type
  | .sizeOf _ => return .integer .unsignedLong
  | .index array _ => do
      let type ← typeOf array
      match type.pointee? with
      | some element => return element
      | none => throw (.typeMismatch (.subscript type.base))
  | .call callee _ => callType typeOf frame callee
  | other => throw (.unsupported (.noValueType other.tag))

/-- The type of an expression that nests at most `fuel` deep. -/
def typeWithin (frame : FrameId) : Nat → NodeId → MachineM ι φ CType
  | 0, node => throw (.unsupported (.deepExpression node))
  | fuel + 1, node => do
      typeOfConstruct (typeWithin frame fuel) frame (← constructAt node)

/-- Depth that no expression of a program exceeds. -/
def depth (m : Machine ι φ) : Nat := m.program.nodes.size + 1

def staticType (frame : FrameId) (node : NodeId) : MachineM ι φ CType := do
  typeWithin frame (← get).depth node

end Machine

end CoreC
