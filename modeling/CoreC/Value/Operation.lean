import CoreC.Value.Basic

/-! # Operators on values

Integer operands are converted to their common type first, and an integer that
meets a floating number is converted to its precision. Pointer arithmetic only
moves the offset. Values that were never written have no results.
-/

namespace CoreC.Value

variable {ι φ : Type} [DecidableEq ι] [BEq φ] [Domain ι φ]

/-- Conversion to an integer type. Pointers need memory for theirs. -/
def castToInt (t : Target) (wanted : IntType) : Value ι φ → Except Fault (ValueSet ι φ)
  | .int data type => .ok (.ofList ((Domain.cast φ t type wanted data).map (.int · wanted)))
  | .float data _ =>
      (Domain.intOfFloat t wanted data).map fun results => .ofList (results.map (.int · wanted))
  | .uninitialized _ => .ok (.singleton (.uninitialized (.int wanted)))
  | other => .error (.typeMismatch (.castToInt other.text wanted))

def castToFloat (wanted : FloatKind) : Value ι φ → Except Fault (Value ι φ)
  | .int data _ => .ok (.float (Domain.floatOfInt wanted data) wanted)
  | .float data _ => .ok (.float (Domain.floatCast ι wanted data) wanted)
  | .uninitialized _ => .ok (.uninitialized (.float wanted))
  | other => .error (.typeMismatch (.castToFloat other.text))

/-- Outcomes of a comparison as integers. -/
def ofOutcomes (t : Target) (results : List Bool) : ValueSet ι φ :=
  .ofList (results.map (ofBool t))

/-- An operator on two integers, after conversion to their common type. -/
def intOperation (t : Target) (op : BinOp) (a : ι) (left : IntType) (b : ι) (right : IntType) :
    Except Fault (ValueSet ι φ) := do
  let type := left.common right
  let pairs := (Domain.cast φ t left type a).flatMap fun x =>
    (Domain.cast φ t right type b).map fun y => (x, y)
  let results ← pairs.mapM fun (x, y) =>
    if op.isRelational then .ok ((Domain.compare φ op x y).map (ofBool t))
    else (Domain.arith φ t type op x y).map fun results => results.map (.int · type)
  return .ofList results.flatten

/-- An operator on two floating numbers, in the wider of their precisions. -/
def floatOperation (t : Target) (op : BinOp) (a : φ) (left : FloatKind) (b : φ)
    (right : FloatKind) : Except Fault (ValueSet ι φ) :=
  let kind := left.wider right
  let x : φ := Domain.floatCast ι kind a
  let y : φ := Domain.floatCast ι kind b
  if op.isRelational then .ok (ofOutcomes t (Domain.floatCompare ι op x y))
  else (Domain.floatArith ι kind op x y).map fun results => .ofList (results.map (.float · kind))

/-- A pointer moved by a number of elements, which is taken as a 64-bit word. -/
def movePointer (op : BinOp) (address : Address) (pointeeSize : Nat) (count : Value ι φ) :
    Except Fault (ValueSet ι φ) := do
  let n ← count.exactInt
  let elements := Number.signedWord 64 n
  let delta := (if op = .sub then -elements else elements) * Number.displacement pointeeSize
  return .singleton (.pointer (address.shift delta) pointeeSize)

/-- An operator on two pointers: their distance in elements, or a comparison. -/
def pointerOperation (t : Target) (op : BinOp) (a : Address) (pointeeSize : Nat) (b : Address) :
    Except Fault (ValueSet ι φ) :=
  if op = .sub then
    if a.base = b.base then
      let distance := (a.offset - b.offset).tdiv (Number.displacement (max pointeeSize 1))
      .ok (.singleton (ofInt t .long distance))
    else .error (.unsupported .pointerDifference)
  else if op.isRelational then .ok (ofOutcomes t [op.holds (some (a.order b))])
  else .error (.typeMismatch (.pointerPair op))

/-- Requires that an integer compared with a pointer is the null constant. -/
def requireNull (v : Value ι φ) : Except Fault Unit := do
  let n ← v.exactInt
  if n = 0 then return () else .error (.typeMismatch (.nullConstant v.text))

def operate (t : Target) (op : BinOp) (left right : Value ι φ) : Except Fault (ValueSet ι φ) :=
  match left, right with
  | .uninitialized _, _ => .error (.uninitialized .leftOperand)
  | _, .uninitialized _ => .error (.uninitialized .rightOperand)
  | .int a leftType, .int b rightType => intOperation t op a leftType b rightType
  | .float a kind, .int b _ => floatOperation t op a kind (Domain.floatOfInt kind b) kind
  | .int a _, .float b kind => floatOperation t op (Domain.floatOfInt kind a) kind b kind
  | .float a leftKind, .float b rightKind => floatOperation t op a leftKind b rightKind
  | .pointer a size, .pointer b _ => pointerOperation t op a size b
  | .pointer a size, .int .. =>
      if op = .add ∨ op = .sub then movePointer op a size right
      else if op.isRelational then do
        requireNull right
        pointerOperation t op a size .null
      else .error (.typeMismatch (.operands left.text op right.text))
  | .int .., .pointer b size =>
      if op = .add then movePointer op b size left
      else if op.isRelational then do
        requireNull left
        pointerOperation t op .null size b
      else .error (.typeMismatch (.operands left.text op right.text))
  | .function f, .function g =>
      if op = .eq then .ok (ofOutcomes t [f = g])
      else if op = .ne then .ok (ofOutcomes t [f ≠ g])
      else .error (.typeMismatch (.operands left.text op right.text))
  | _, _ => .error (.typeMismatch (.operands left.text op right.text))

def operateUnary (t : Target) (op : UnOp) (v : Value ι φ) : Except Fault (ValueSet ι φ) :=
  match v with
  | .uninitialized _ => .error (.uninitialized .unaryOperand)
  | _ =>
      if op = .not then v.truth.map fun results => ofOutcomes t (results.map (!·))
      else
        match v with
        | .int data type =>
            (Domain.unary φ t type op data).map fun results => .ofList (results.map (.int · type))
        | .float data kind =>
            (Domain.floatUnary ι op data).map fun results => .ofList (results.map (.float · kind))
        | other => .error (.typeMismatch (.unaryOperand op other.text))

/-- Byte pattern of a value that is not an address. -/
def bytes? (t : Target) : Value ι φ → Option BytePattern
  | .int data type => some (Domain.toBytes φ t type data)
  | .float data kind => some (Domain.floatToBytes ι t kind data)
  | .uninitialized scalar => some (.uninitialized (scalar.size t))
  | .pointer .. | .function _ => none

/-- Values of a representation class that bytes may stand for; `none` for classes
whose values are addresses, unless the bytes were never written. -/
def ofBytes? (t : Target) (scalar : Scalar) (bytes : BytePattern) :
    Option (Except Fault (ValueSet ι φ)) :=
  if !bytes.isInitialized then some (.ok (.singleton (.uninitialized scalar)))
  else
    match scalar with
    | .int type =>
        some ((Domain.ofBytes φ t type bytes).map fun results => .ofList (results.map (.int · type)))
    | .float kind =>
        some ((Domain.floatOfBytes ι t kind bytes).map fun results =>
          .ofList (results.map (.float · kind)))
    | .pointer _ | .function => none

end CoreC.Value
