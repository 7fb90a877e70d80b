import CoreC.Json.Record
import CoreC.Program.Construct

/-! # Programs in JSON

Writing gives every field. Reading takes the defaults of fields that are missing and
passes over members that it does not know. Where `positional` holds, a construct may
also be given as the array of its fields; other records always may.
-/

namespace CoreC

open Json

namespace IntRank

def spellings : List (String × IntRank) :=
  [("char", .char), ("short", .short), ("int", .int), ("long", .long), ("long_long", .longLong)]

def toJson : IntRank → Json := Json.ofNamed spellings

def ofJson? : Json → Option IntRank := Json.ofName? spellings

end IntRank

namespace FloatKind

def spellings : List (String × FloatKind) :=
  [("float", .float), ("double", .double), ("long_double", .longDouble)]

def toJson : FloatKind → Json := Json.ofNamed spellings

def ofJson? : Json → Option FloatKind := Json.ofName? spellings

end FloatKind

namespace IntType

def toJson (type : IntType) : Json :=
  .obj [("kind", type.rank.toJson), ("signed", .bool type.signed)]

def ofJson? (j : Json) : Option IntType := do
  let f ← Fields.ofJson? ["kind", "signed"] j
  let rank ← f.required? "kind" IntRank.ofJson?
  let signed ← f.required? "signed" Json.toBool?
  return ⟨rank, signed⟩

end IntType

namespace BaseType

def toJson : BaseType → Json
  | .void => .str "Void"
  | .integer type => tagged "Integer" type.toJson
  | .floating kind => tagged "Floating" kind.toJson
  | .struct name => tagged "Struct" (.str name)
  | .union name => tagged "Union" (.str name)
  | .function => .str "Function"

def ofJson? (j : Json) : Option BaseType := do
  match ← variant? j with
  | ("Void", none) | ("Void", some .null) => return .void
  | ("Function", none) | ("Function", some .null) => return .function
  | ("Integer", some content) => (IntType.ofJson? content).map .integer
  | ("Floating", some content) => (FloatKind.ofJson? content).map .floating
  | ("Struct", some content) => content.toString?.map .struct
  | ("Union", some content) => content.toString?.map .union
  | _ => none

end BaseType

namespace CType

def toJson (type : CType) : Json :=
  .obj [("base", type.base.toJson), ("pointer_depth", .ofNat type.pointers),
    ("array_len", .ofOption .ofNat type.length?)]

def ofJson? (j : Json) : Option CType := do
  let f ← Fields.ofJson? ["base", "pointer_depth", "array_len"] j
  let base ← f.required? "base" BaseType.ofJson?
  let pointers ← f.withDefault? "pointer_depth" 0 Json.toNat?
  let length? ← f.withDefault? "array_len" none (Json.toOption? Json.toNat?)
  return ⟨base, pointers, length?⟩

end CType

namespace BinOp

def spellings : List (String × BinOp) :=
  [("Add", .add), ("Sub", .sub), ("Mul", .mul), ("Div", .div), ("Mod", .mod), ("Eq", .eq),
    ("Ne", .ne), ("Lt", .lt), ("Le", .le), ("Gt", .gt), ("Ge", .ge), ("BitAnd", .bitAnd),
    ("BitOr", .bitOr), ("BitXor", .bitXor), ("Shl", .shl), ("Shr", .shr)]

def toJson : BinOp → Json := Json.ofNamed spellings

def ofJson? : Json → Option BinOp := Json.ofName? spellings

end BinOp

namespace UnOp

def spellings : List (String × UnOp) :=
  [("Neg", .neg), ("Plus", .plus), ("Not", .not), ("BitNot", .bitNot), ("Deref", .deref),
    ("AddrOf", .addrOf)]

def toJson : UnOp → Json := Json.ofNamed spellings

def ofJson? : Json → Option UnOp := Json.ofName? spellings

end UnOp

def Construct.fields? (positional : Bool) (names : List String) (content : Option Json) :
    Option Fields :=
  match content with
  | some (.obj members) => Fields.ofJson? names (.obj members)
  | some (.arr items) => if positional then Fields.ofJson? names (.arr items) else none
  | _ => none

namespace Literal

def toJson : Literal → Json
  | .int value type => tagged "Int" (.obj [("value", .ofInt value), ("ty", type.toJson)])
  | .float value kind => tagged "Float" (.obj [("value", .ofDouble value), ("kind", kind.toJson)])
  | .char code => tagged "Char" (.ofNat code.toNat)
  | .str text => tagged "Str" (.str text)

def ofJson? (positional : Bool) (j : Json) : Option Literal := do
  match ← variant? j with
  | ("Int", content) =>
      let f ← Construct.fields? positional ["value", "ty"] content
      let value ← f.required? "value" Json.toInt?
      let type ← f.required? "ty" IntType.ofJson?
      return .int value type
  | ("Float", content) =>
      let f ← Construct.fields? positional ["value", "kind"] content
      let value ← f.required? "value" Json.toDouble?
      let kind ← f.required? "kind" FloatKind.ofJson?
      return .float value kind
  | ("Char", some content) =>
      let code ← content.toNat?
      if code < 256 then return .char code.toUInt8 else none
  | ("Str", some content) => content.toString?.map .str
  | _ => none

end Literal

namespace Clause

def toJson : Clause → Json
  | .numThreads count => tagged "NumThreads" (.ofNat count)
  | .privateVars names => tagged "Private" (.ofList .str names)
  | .firstPrivateVars names => tagged "FirstPrivate" (.ofList .str names)
  | .sharedVars names => tagged "Shared" (.ofList .str names)
  | .noWait => .str "NoWait"

def ofJson? (j : Json) : Option Clause := do
  match ← variant? j with
  | ("NumThreads", some content) => content.toNat?.map .numThreads
  | ("Private", some content) => (content.toList? Json.toString?).map .privateVars
  | ("FirstPrivate", some content) => (content.toList? Json.toString?).map .firstPrivateVars
  | ("Shared", some content) => (content.toList? Json.toString?).map .sharedVars
  | ("NoWait", none) | ("NoWait", some .null) => return .noWait
  | _ => none

end Clause

namespace Member

def toJson (m : Member) : Json := .obj [("name", .str m.name), ("ty", m.type.toJson)]

def ofJson? (j : Json) : Option Member := do
  let f ← Fields.ofJson? ["name", "ty"] j
  let name ← f.required? "name" Json.toString?
  let type ← f.required? "ty" CType.ofJson?
  return ⟨name, type⟩

end Member

namespace Construct

def toJson : Construct → Json
  | .file items => tagged "FileAst" (.obj [("items", .ofList .ofNat items)])
  | .funcDef name returns params body =>
      tagged "FuncDef" (.obj [("name", .str name), ("return_type", returns.toJson),
        ("params", .ofList Member.toJson params), ("body", .ofNat body)])
  | .structDecl name fields union =>
      tagged "StructDecl" (.obj [("name", .str name), ("fields", .ofList Member.toJson fields),
        ("union", .bool union)])
  | .decl name type init =>
      tagged "Decl" (.obj [("name", .str name), ("ty", type.toJson), ("init", .ofOption .ofNat init)])
  | .compound items => tagged "Compound" (.obj [("items", .ofList .ofNat items)])
  | .assignment target value =>
      tagged "Assignment" (.obj [("lvalue", .ofNat target), ("rvalue", .ofNat value)])
  | .branch cond thenBlock elseBlock =>
      tagged "If" (.obj [("cond", .ofNat cond), ("then_branch", .ofNat thenBlock),
        ("else_branch", .ofOption .ofNat elseBlock)])
  | .loop cond body => tagged "While" (.obj [("cond", .ofNat cond), ("body", .ofNat body)])
  | .goto target => tagged "Goto" (.obj [("label", .str target)])
  | .label name stmt => tagged "Label" (.obj [("name", .str name), ("stmt", .ofNat stmt)])
  | .ret value => tagged "Return" (.obj [("expr", .ofOption .ofNat value)])
  | .empty => .str "EmptyStatement"
  | .call callee args =>
      tagged "FuncCall" (.obj [("callee", .ofNat callee), ("args", .ofList .ofNat args)])
  | .id name => tagged "Id" (.obj [("name", .str name)])
  | .literal value => tagged "Constant" value.toJson
  | .binary op left right =>
      tagged "BinaryOp" (.obj [("op", op.toJson), ("left", .ofNat left), ("right", .ofNat right)])
  | .unary op operand =>
      tagged "UnaryOp" (.obj [("op", op.toJson), ("operand", .ofNat operand)])
  | .cast type operand => tagged "Cast" (.obj [("ty", type.toJson), ("expr", .ofNat operand)])
  | .sizeOf type => tagged "SizeOf" (.obj [("ty", type.toJson)])
  | .index array position =>
      tagged "ArrayRef" (.obj [("array", .ofNat array), ("index", .ofNat position)])
  | .parallel clauses block =>
      tagged "OmpParallel" (.obj [("clauses", .ofList Clause.toJson clauses), ("block", .ofNat block)])
  | .parallelFor clauses var init condOp bound stepOp step body =>
      tagged "OmpFor" (.obj [("clauses", .ofList Clause.toJson clauses), ("var", .str var),
        ("init", .ofNat init), ("cond_op", condOp.toJson), ("bound", .ofNat bound),
        ("step_op", stepOp.toJson), ("step", .ofNat step), ("body", .ofNat body)])
  | .critical name block =>
      tagged "OmpCritical" (.obj [("name", .ofOption .str name), ("block", .ofNat block)])

def ofContent? (positional : Bool) (content : Option Json) : String → Option Construct
  | "FileAst" => do
      let f ← fields? positional ["items"] content
      return .file (← f.required? "items" (Json.toList? Json.toNat?))
  | "FuncDef" => do
      let f ← fields? positional ["name", "return_type", "params", "body"] content
      let name ← f.required? "name" Json.toString?
      let returns ← f.required? "return_type" CType.ofJson?
      let params ← f.required? "params" (Json.toList? Member.ofJson?)
      return .funcDef name returns params (← f.required? "body" Json.toNat?)
  | "StructDecl" => do
      let f ← fields? positional ["name", "fields", "union"] content
      let name ← f.required? "name" Json.toString?
      let members ← f.required? "fields" (Json.toList? Member.ofJson?)
      return .structDecl name members (← f.withDefault? "union" false Json.toBool?)
  | "Decl" => do
      let f ← fields? positional ["name", "ty", "init"] content
      let name ← f.required? "name" Json.toString?
      let type ← f.required? "ty" CType.ofJson?
      return .decl name type (← f.optional? "init" Json.toNat?)
  | "Compound" => do
      let f ← fields? positional ["items"] content
      return .compound (← f.required? "items" (Json.toList? Json.toNat?))
  | "Assignment" => do
      let f ← fields? positional ["lvalue", "rvalue"] content
      return .assignment (← f.required? "lvalue" Json.toNat?) (← f.required? "rvalue" Json.toNat?)
  | "If" => do
      let f ← fields? positional ["cond", "then_branch", "else_branch"] content
      let cond ← f.required? "cond" Json.toNat?
      let thenBlock ← f.required? "then_branch" Json.toNat?
      return .branch cond thenBlock (← f.optional? "else_branch" Json.toNat?)
  | "While" => do
      let f ← fields? positional ["cond", "body"] content
      return .loop (← f.required? "cond" Json.toNat?) (← f.required? "body" Json.toNat?)
  | "Goto" => do
      let f ← fields? positional ["label"] content
      return .goto (← f.required? "label" Json.toString?)
  | "Label" => do
      let f ← fields? positional ["name", "stmt"] content
      return .label (← f.required? "name" Json.toString?) (← f.required? "stmt" Json.toNat?)
  | "Return" => do
      let f ← fields? positional ["expr"] content
      return .ret (← f.optional? "expr" Json.toNat?)
  | "EmptyStatement" =>
      match content with
      | none | some .null => some .empty
      | _ => none
  | "FuncCall" => do
      let f ← fields? positional ["callee", "args"] content
      let callee ← f.required? "callee" Json.toNat?
      return .call callee (← f.required? "args" (Json.toList? Json.toNat?))
  | "Id" => do
      let f ← fields? positional ["name"] content
      return .id (← f.required? "name" Json.toString?)
  | "Constant" => do return .literal (← Literal.ofJson? positional (← content))
  | "BinaryOp" => do
      let f ← fields? positional ["op", "left", "right"] content
      let op ← f.required? "op" BinOp.ofJson?
      return .binary op (← f.required? "left" Json.toNat?) (← f.required? "right" Json.toNat?)
  | "UnaryOp" => do
      let f ← fields? positional ["op", "operand"] content
      return .unary (← f.required? "op" UnOp.ofJson?) (← f.required? "operand" Json.toNat?)
  | "Cast" => do
      let f ← fields? positional ["ty", "expr"] content
      return .cast (← f.required? "ty" CType.ofJson?) (← f.required? "expr" Json.toNat?)
  | "SizeOf" => do
      let f ← fields? positional ["ty"] content
      return .sizeOf (← f.required? "ty" CType.ofJson?)
  | "ArrayRef" => do
      let f ← fields? positional ["array", "index"] content
      return .index (← f.required? "array" Json.toNat?) (← f.required? "index" Json.toNat?)
  | "OmpParallel" => do
      let f ← fields? positional ["clauses", "block"] content
      let clauses ← f.required? "clauses" (Json.toList? Clause.ofJson?)
      return .parallel clauses (← f.required? "block" Json.toNat?)
  | "OmpFor" => do
      let f ← fields? positional
        ["clauses", "var", "init", "cond_op", "bound", "step_op", "step", "body"] content
      let clauses ← f.required? "clauses" (Json.toList? Clause.ofJson?)
      let var ← f.required? "var" Json.toString?
      let init ← f.required? "init" Json.toNat?
      let condOp ← f.required? "cond_op" BinOp.ofJson?
      let bound ← f.required? "bound" Json.toNat?
      let stepOp ← f.required? "step_op" BinOp.ofJson?
      let step ← f.required? "step" Json.toNat?
      return .parallelFor clauses var init condOp bound stepOp step
        (← f.required? "body" Json.toNat?)
  | "OmpCritical" => do
      let f ← fields? positional ["name", "block"] content
      let name ← f.optional? "name" Json.toString?
      return .critical name (← f.required? "block" Json.toNat?)
  | _ => none

def ofJson? (positional : Bool) (j : Json) : Option Construct := do
  let (name, content) ← variant? j
  ofContent? positional content name

end Construct

namespace Location

def toJson (l : Location) : Json := .obj [("line", .ofNat l.line), ("column", .ofNat l.column)]

def ofJson? (j : Json) : Option Location := do
  let f ← Fields.ofJson? ["line", "column"] j
  return ⟨← f.required? "line" Json.toNat?, ← f.required? "column" Json.toNat?⟩

end Location

namespace Node

def toJson (n : Node) : Json :=
  .obj [("kind", n.construct.toJson), ("location", n.location.toJson)]

def ofJson? (positional : Bool) (j : Json) : Option Node := do
  let f ← Fields.ofJson? ["kind", "location"] j
  let construct ← f.required? "kind" (Construct.ofJson? positional)
  let location ← f.withDefault? "location" ⟨0, 0⟩ Location.ofJson?
  return ⟨construct, location⟩

end Node

namespace Program

def toJson (p : Program) : Json :=
  .obj [("nodes", .ofList Node.toJson p.nodes.toList), ("root", .ofNat p.root)]

def ofJson? (positional : Bool) (j : Json) : Option Program := do
  let f ← Fields.ofJson? ["nodes", "root"] j
  let nodes ← f.required? "nodes" (Json.toList? (Node.ofJson? positional))
  let root ← f.required? "root" Json.toNat?
  return ⟨nodes.toArray, root⟩

end Program

end CoreC
