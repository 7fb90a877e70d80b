import CoreC.Memory.Address
import CoreC.Program.Operator
import CoreC.Target

/-! # Faults

Everything that can stop a run, by cause. Wording is kept apart from the causes, in
the `message` functions.
-/

namespace CoreC

inductive MemoryFault where
  | nullDereference (address : Address)
  | unallocatedAccess (address : Address)
  | outOfBounds (address : Address)
  | readPastEnd (address : Address)
  | writePastEnd (address : Address)
  | movedBeforeStart (address : Address)
  | movedPastEnd (address : Address)
  | unallocatedPointer (address : Address)
  | freeUnallocated (address : Address)
  | freeInsideBlock (address : Address)
  | freeForeign (address : Address)
  | longInitializer (address : Address)
  | danglingCell (key : Nat)
  | zeroFillUnallocated
  | freeUnknownBlock (block : Nat)
  | freeLiteral
  | doubleFree (block : Nat)
  | useAfterFree (block : Nat)
  | neverAllocated (block : Nat)
  deriving DecidableEq

namespace MemoryFault

def address? : MemoryFault → Option Address
  | .nullDereference a | .unallocatedAccess a | .outOfBounds a | .readPastEnd a
  | .writePastEnd a | .movedBeforeStart a | .movedPastEnd a | .unallocatedPointer a
  | .freeUnallocated a | .freeInsideBlock a | .freeForeign a | .longInitializer a => some a
  | _ => none

def message : MemoryFault → String
  | .nullDereference _ => "null pointer dereference"
  | .unallocatedAccess _ => "access to an unallocated address"
  | .outOfBounds _ => "out of bounds access"
  | .readPastEnd _ => "access runs past the end of the object"
  | .writePastEnd _ => "write runs past the end of the object"
  | .movedBeforeStart _ => "pointer moved before the start of the object"
  | .movedPastEnd _ => "pointer moved past the end of the object"
  | .unallocatedPointer _ => "pointer to an unallocated address"
  | .freeUnallocated _ => "free of an unallocated address"
  | .freeInsideBlock _ => "free of a pointer that is not the start of a block"
  | .freeForeign _ => "free of memory not obtained from malloc"
  | .longInitializer _ => "string initializer longer than its array"
  | .danglingCell key => s!"dangling unit {key}"
  | .zeroFillUnallocated => "zero fill of an unallocated object"
  | .freeUnknownBlock block => s!"free of unknown block {block}"
  | .freeLiteral => "free of a string literal"
  | .doubleFree block => s!"double free of block {block}"
  | .useAfterFree block => s!"use after free of block {block}"
  | .neverAllocated block => s!"block {block} was never allocated"

end MemoryFault

/-- Uses that need a value that was written before. -/
inductive ValueUse where
  | bytePattern
  | leftOperand
  | rightOperand
  | unaryOperand
  | integerOperand
  | branchCondition
  | functionPointer
  | dereference
  | freeArgument
  | printfArgument (spec : Char)
  deriving DecidableEq

def ValueUse.message : ValueUse → String
  | .bytePattern => "byte pattern"
  | .leftOperand => "left operand"
  | .rightOperand => "right operand"
  | .unaryOperand => "unary operand"
  | .integerOperand => "integer operand"
  | .branchCondition => "branch condition"
  | .functionPointer => "function pointer"
  | .dereference => "pointer dereference"
  | .freeArgument => "free argument"
  | .printfArgument spec => "printf argument for %" ++ String.singleton spec

/-- Values and types that do not fit their use. Values are given by their text. -/
inductive TypeMismatch where
  | scalarFromArray
  | scalarFromAggregate (name : String)
  | voidObject
  | integerExpected (shown : String)
  | castToInt (shown : String) (type : IntType)
  | castToFloat (shown : String)
  | pointerPair (op : BinOp)
  | nullConstant (shown : String)
  | operands (left : String) (op : BinOp) (right : String)
  | unaryOperand (op : UnOp) (shown : String)
  | floatOperands (op : BinOp)
  | floatOperand (op : UnOp)
  | aggregateValue (base : BaseType)
  | dereference (base : BaseType)
  | subscript (base : BaseType)
  | callee (base : BaseType)
  | conversion (scalar : Scalar) (shown : String)
  | pointerExpected (shown : String)
  | functionExpected (shown : String)
  | arithmeticTypes (left : BaseType) (op : BinOp) (right : BaseType)
  | characterArray (element : CType)
  deriving DecidableEq

namespace TypeMismatch

def expected : TypeMismatch → String
  | .scalarFromArray | .scalarFromAggregate _ => "scalar type"
  | .voidObject => "object type"
  | .integerExpected _ => "integer"
  | .castToInt .. | .castToFloat _ => "arithmetic value"
  | .pointerPair _ => "pointer arithmetic"
  | .nullConstant _ => "null pointer constant"
  | .operands .. => "compatible operands"
  | .unaryOperand .. => "arithmetic operand"
  | .floatOperands _ => "integer operands"
  | .floatOperand _ => "integer operand"
  | .aggregateValue _ => "scalar value"
  | .dereference _ | .pointerExpected _ => "pointer"
  | .subscript _ => "array or pointer"
  | .callee _ | .functionExpected _ => "function"
  | .conversion scalar _ => scalar.describe
  | .arithmeticTypes .. => "arithmetic operands"
  | .characterArray _ => "character array"

def given : TypeMismatch → String
  | .scalarFromArray => "array"
  | .scalarFromAggregate name => "aggregate '" ++ name ++ "'"
  | .voidObject => "void"
  | .integerExpected shown | .pointerExpected shown | .functionExpected shown
  | .conversion _ shown => shown
  | .castToInt shown type => shown ++ " cast to " ++ type.name
  | .castToFloat shown => shown ++ " cast to floating"
  | .pointerPair op => "pointer " ++ op.symbol ++ " pointer"
  | .nullConstant shown => "comparison of pointer with " ++ shown
  | .operands left op right => left ++ " " ++ op.symbol ++ " " ++ right
  | .unaryOperand op shown => op.describe ++ " applied to " ++ shown
  | .floatOperands op => "floating operands to " ++ op.symbol
  | .floatOperand op => "floating operand to " ++ op.describe
  | .aggregateValue base => base.describe
  | .dereference base => "dereference of " ++ base.describe
  | .subscript base => "subscript of " ++ base.describe
  | .callee base => "call of " ++ base.describe
  | .arithmeticTypes left op right =>
      left.describe ++ " " ++ op.symbol ++ " " ++ right.describe
  | .characterArray element => element.describe

end TypeMismatch

/-- Shapes of a program that the machine does not run. -/
inductive ShapeFault where
  | rootNotFile
  | danglingNode (id : Nat)
  | sharedNode (id : Nat)
  | duplicateFunction (name : String)
  | labelOutsideFunction (name : String)
  | duplicateLabel (name : String)
  | blockExpected (role : String) (id : Nat)
  | nestedIndex
  | severalReturns (function : Nat)
  | labelCycle (id : Nat)
  | notInBlock (id : Nat)
  | noSuccessor (id : Nat)
  | notBlock (id : Nat)
  | blockNested (id : Nat) (tag : String)
  | noStatement (block index : Nat)
  deriving DecidableEq

def ShapeFault.message : ShapeFault → String
  | .rootNotFile => "program root is not a FileAST"
  | .danglingNode id => s!"dangling node id {id}"
  | .sharedNode id => s!"node {id} is shared between parents"
  | .duplicateFunction name => s!"duplicate definition of function '{name}'"
  | .labelOutsideFunction name => s!"label '{name}' outside a function"
  | .duplicateLabel name => s!"duplicate label '{name}'"
  | .blockExpected role id => s!"{role} of node {id} must be a compound block"
  | .nestedIndex => "nested array reference (multi-dimensional arrays must be flattened)"
  | .severalReturns function => s!"function at node {function} has more than one return site"
  | .labelCycle id => s!"label at node {id} marks itself"
  | .notInBlock id => s!"statement {id} is not inside a block"
  | .noSuccessor id => s!"expression control {id} has no statement successor"
  | .notBlock id => s!"node {id} is not a block"
  | .blockNested id tag => s!"block {id} nested in {tag}"
  | .noStatement block index =>
      "control Stmt \x7b block: " ++ toString block ++ ", index: " ++ toString index ++
        " \x7d names no statement"

/-- Everything outside the supported language and the capacity of the machine. -/
inductive Unsupported where
  | shape (fault : ShapeFault)
  | unknownFrame (frame : Nat)
  | globalSetTwice
  | unknownAggregate (name : String)
  | emptyStruct (name : String)
  | emptyUnion (name : String)
  | recursiveAggregate (name : String)
  | widePattern
  | unknownBits (count : Nat)
  | shiftCount (count : Int) (bits : Nat)
  | relationalArithmetic (op : BinOp)
  | notArithmetic (op : UnOp)
  | floatConversion (shown : String) (type : IntType)
  | floatUnknownBits
  | abstractInteger (shown : String)
  | pointerDifference
  | zeroSizedObject
  | unitCycle (key : Nat)
  | bytePatterns (limit : Nat)
  | byteAccess (shown : String)
  | byteAccessFunction
  | noContinuation (address : Nat)
  | continuationCycle (address : Nat)
  | mainNotFunction
  | noCondition
  | fileStatement
  | arrayInitializer
  | severalSources
  | noCallee
  | severalCallees
  | notFunction (id : Nat)
  | aggregateParameter (name : String)
  | nestedCall (name : String)
  | calleeNotName
  | notExpression (tag : String)
  | notLvalue (tag : String)
  | noValueType (tag : String)
  | deepExpression (id : Nat)
  | unreachableBlock (block frame : Nat)
  | gotoOutsideStatement
  | gotoOutsideFunction (label : String)
  | undefinedLabel (label : String)
  | undeterminedLoop
  | loopTasks (limit : Nat)
  | loopStep (op : BinOp)
  | singleValue (what : String)
  | positiveConstant (what : String)
  | negativeCount (function : String) (count : Int)
  | severalCounts (function : String)
  | uncertainString
  | longString
  deriving DecidableEq

def Unsupported.message : Unsupported → String
  | .shape fault => fault.message
  | .unknownFrame frame => s!"unknown frame {frame}"
  | .globalSetTwice => "global environment set twice"
  | .unknownAggregate name => s!"unknown struct or union '{name}'"
  | .emptyStruct name => s!"empty struct '{name}'"
  | .emptyUnion name => s!"empty union '{name}'"
  | .recursiveAggregate name => s!"aggregate '{name}' contains itself"
  | .widePattern => "byte pattern wider than 16 bytes"
  | .unknownBits count => s!"cannot concretize {count} unknown bits"
  | .shiftCount count bits => s!"shift by {count} on a {bits}-bit operand"
  | .relationalArithmetic op => "relational operator " ++ op.symbol ++ " used as arithmetic"
  | .notArithmetic op => op.describe ++ " is not an arithmetic operator"
  | .floatConversion shown type => "conversion of " ++ shown ++ " to " ++ type.name
  | .floatUnknownBits => "floating value with unknown bits"
  | .abstractInteger shown => s!"abstract integer {shown} cannot be concretized"
  | .pointerDifference => "subtraction of pointers into different objects"
  | .zeroSizedObject => "allocation of a zero-sized object"
  | .unitCycle key => s!"unit {key} follows itself"
  | .bytePatterns limit => s!"more than {limit} byte patterns for one access"
  | .byteAccess shown => s!"byte-level access to {shown}"
  | .byteAccessFunction => "byte-level access to a function pointer"
  | .noContinuation address => s!"no continuation at address {address}"
  | .continuationCycle address => s!"continuation at address {address} returns to itself"
  | .mainNotFunction => "main is not a function definition"
  | .noCondition => "condition produced no value"
  | .fileStatement => "translation unit used as a statement"
  | .arrayInitializer => "array initializer other than a string literal"
  | .severalSources => "aggregate initializer with several sources"
  | .noCallee => "call through an empty value set"
  | .severalCallees => "call through a function pointer with several targets"
  | .notFunction id => s!"node {id} is not a function"
  | .aggregateParameter name => s!"struct parameter '{name}' passed by value"
  | .nestedCall name => s!"call to '{name}' nested inside an expression"
  | .calleeNotName => "call through a non-identifier callee"
  | .notExpression tag => s!"{tag} used as an expression"
  | .notLvalue tag => s!"{tag} is not an lvalue"
  | .noValueType tag => s!"{tag} has no value type"
  | .deepExpression id => s!"expression at node {id} contains itself"
  | .unreachableBlock block frame => s!"block {block} is not reachable from frame {frame}"
  | .gotoOutsideStatement => "goto outside statement control"
  | .gotoOutsideFunction label => s!"goto {label} outside a function"
  | .undefinedLabel label => s!"undefined label '{label}'"
  | .undeterminedLoop => "omp for iteration space is not determinable"
  | .loopTasks limit => s!"omp for with more than {limit} iterations"
  | .loopStep op => "omp for increment with " ++ op.symbol
  | .singleValue what => s!"{what} must have a single value"
  | .positiveConstant what => s!"{what} must be a positive constant"
  | .negativeCount function count => s!"{function} called with negative count {count}"
  | .severalCounts function => s!"{function} called with a count that is not a single constant"
  | .uncertainString => "%s of a string with uncertain contents"
  | .longString => "string too long or missing NUL terminator"

/-- Formats and arguments that do not go together. -/
inductive PrintfFault where
  | noFormat
  | formatNotLiteral
  | missingArgument
  | wrongArgument (spec : Char) (expected shown : String)
  | unknownSpec (spec : Char)
  deriving DecidableEq

def PrintfFault.message : PrintfFault → String
  | .noFormat => "printf requires at least one argument"
  | .formatNotLiteral => "printf format must be a string literal"
  | .missingArgument => "not enough arguments for format string"
  | .wrongArgument spec expected shown =>
      "%" ++ String.singleton spec ++ " expects " ++ expected ++ ", got " ++ shown
  | .unknownSpec spec => "unsupported format specifier %" ++ String.singleton spec

/-- Why a run stopped, or could not start. -/
inductive Fault where
  | memory (fault : MemoryFault)
  | uninitialized (use : ValueUse)
  | unknownSetting (key value : String)
  | deadlock (blocked : Nat)
  | unsupported (cause : Unsupported)
  | undefinedVariable (name : String)
  | undefinedFunction (name : String)
  | argumentCount (function : String) (expected given : Nat)
  | divisionByZero (op : BinOp)
  | printf (fault : PrintfFault)
  | typeMismatch (cause : TypeMismatch)
  | stepLimit (limit : Nat)
  deriving DecidableEq

namespace Fault

def message : Fault → String
  | .memory fault => "segmentation fault: " ++ fault.message
  | .uninitialized use => "use of uninitialized value in " ++ use.message
  | .unknownSetting key value => s!"unknown configuration value '{value}' for {key}"
  | .deadlock blocked => s!"deadlock: {blocked} task(s) blocked with nothing runnable"
  | .unsupported cause => "unsupported construct: " ++ cause.message
  | .undefinedVariable name => s!"undefined variable '{name}'"
  | .undefinedFunction name => s!"undefined function '{name}'"
  | .argumentCount function expected given =>
      s!"function '{function}' expects {expected} argument(s), got {given}"
  | .divisionByZero op => (if op = .mod then "modulo" else "division") ++ " by zero"
  | .printf fault => "invalid printf format: " ++ fault.message
  | .typeMismatch cause => "type error: expected " ++ cause.expected ++ ", got " ++ cause.given
  | .stepLimit limit => s!"step limit of {limit} exceeded"

def isMemoryFault : Fault → Bool
  | .memory _ => true
  | _ => false

def exitCode : Fault → Nat
  | .memory _ => 2
  | .unknownSetting .. => 3
  | .unsupported _ => 4
  | .deadlock _ => 5
  | _ => 1

def shape (fault : ShapeFault) : Fault := .unsupported (.shape fault)

end Fault

end CoreC
