import CoreC.Number.Double
import CoreC.Program.CType
import CoreC.Program.Operator

/-! # Programs

A program is an arena of nodes that refer to each other by index. Every node is
one construct of the desugared language: `for`, `do` and `switch` are lowered to
`while`, `if` and `goto`, and directives are constructs of their own.
-/

namespace CoreC

abbrev NodeId := Nat

structure Location where
  line : Nat
  column : Nat
  deriving DecidableEq

inductive Literal where
  | int (value : Int) (type : IntType)
  | float (value : Double) (kind : FloatKind)
  | char (code : UInt8)
  | str (text : String)
  deriving DecidableEq

inductive Clause where
  | numThreads (count : NodeId)
  | privateVars (names : List String)
  | firstPrivateVars (names : List String)
  | sharedVars (names : List String)
  | noWait
  deriving DecidableEq

/-- A named, typed slot: a parameter of a function, or a member of an aggregate. -/
structure Member where
  name : String
  type : CType
  deriving DecidableEq

inductive Construct where
  | file (items : List NodeId)
  | funcDef (name : String) (returns : CType) (params : List Member) (body : NodeId)
  | structDecl (name : String) (fields : List Member) (union : Bool)
  | decl (name : String) (type : CType) (init : Option NodeId)
  | compound (items : List NodeId)
  | assignment (target : NodeId) (value : NodeId)
  | branch (cond : NodeId) (thenBlock : NodeId) (elseBlock : Option NodeId)
  | loop (cond : NodeId) (body : NodeId)
  | goto (label : String)
  | label (name : String) (stmt : NodeId)
  | ret (value : Option NodeId)
  | empty
  | call (callee : NodeId) (args : List NodeId)
  | id (name : String)
  | literal (value : Literal)
  | binary (op : BinOp) (left : NodeId) (right : NodeId)
  | unary (op : UnOp) (operand : NodeId)
  | cast (type : CType) (operand : NodeId)
  | sizeOf (type : CType)
  | index (array : NodeId) (position : NodeId)
  | parallel (clauses : List Clause) (block : NodeId)
  /-- Runs `body` for the values of `var` from `init` while `condOp` holds against
  `bound`, changing by `stepOp` with `step`. -/
  | parallelFor (clauses : List Clause) (var : String) (init : NodeId) (condOp : BinOp)
      (bound : NodeId) (stepOp : BinOp) (step : NodeId) (body : NodeId)
  | critical (name : Option String) (block : NodeId)
  deriving DecidableEq

def Clause.children (clauses : List Clause) : List NodeId :=
  clauses.filterMap fun
    | .numThreads count => some count
    | _ => none

namespace Construct

/-- The construct's name in diagnostics. -/
def tag : Construct → String
  | .file .. => "FileAST"
  | .funcDef .. => "FuncDef"
  | .structDecl .. => "StructDecl"
  | .decl .. => "Decl"
  | .compound .. => "Compound"
  | .assignment .. => "Assignment"
  | .branch .. => "If"
  | .loop .. => "While"
  | .goto .. => "Goto"
  | .label .. => "Label"
  | .ret .. => "Return"
  | .empty => "EmptyStatement"
  | .call .. => "FuncCall"
  | .id .. => "ID"
  | .literal .. => "Constant"
  | .binary .. => "BinaryOp"
  | .unary .. => "UnaryOp"
  | .cast .. => "Cast"
  | .sizeOf .. => "SizeOf"
  | .index .. => "ArrayRef"
  | .parallel .. => "OmpParallel"
  | .parallelFor .. => "OmpFor"
  | .critical .. => "OmpCritical"

def children : Construct → List NodeId
  | .file items => items
  | .compound items => items
  | .funcDef _ _ _ body => [body]
  | .decl _ _ init => init.toList
  | .assignment target value => [target, value]
  | .branch cond thenBlock elseBlock => cond :: thenBlock :: elseBlock.toList
  | .loop cond body => [cond, body]
  | .label _ stmt => [stmt]
  | .ret value => value.toList
  | .call callee args => callee :: args
  | .binary _ left right => [left, right]
  | .unary _ operand => [operand]
  | .cast _ operand => [operand]
  | .index array position => [array, position]
  | .parallel clauses block => Clause.children clauses ++ [block]
  | .parallelFor clauses _ init _ bound _ step body =>
      Clause.children clauses ++ [init, bound, step, body]
  | .critical _ block => [block]
  | .structDecl .. | .goto .. | .empty | .id .. | .literal .. | .sizeOf .. => []

/-- The statements of a block: a compound statement or the file itself. -/
def items? : Construct → Option (List NodeId)
  | .file items => some items
  | .compound items => some items
  | _ => none

/-- Constructs whose block runs under a continuation of its own, so that leaving the
block invokes that continuation. -/
def ownsBlock : Construct → Bool
  | .funcDef .. | .parallel .. | .parallelFor .. | .critical .. => true
  | _ => false

end Construct

structure Node where
  construct : Construct
  location : Location
  deriving DecidableEq

/-- An arena of nodes and the node that stands for the whole file. -/
structure Program where
  nodes : Array Node
  root : NodeId
  deriving DecidableEq

namespace Program

def construct? (p : Program) (id : NodeId) : Option Construct :=
  p.nodes[id]?.map (·.construct)

/-- Where a node was written; the origin for a node that does not exist. -/
def location (p : Program) (id : NodeId) : Location :=
  (p.nodes[id]?.map (·.location)).getD ⟨0, 0⟩

def blockItems? (p : Program) (id : NodeId) : Option (List NodeId) :=
  (p.construct? id).bind Construct.items?

/-- The first node under `id` that is not a label, after at most `fuel` labels. -/
def throughLabels? (p : Program) : Nat → NodeId → Option NodeId
  | 0, _ => none
  | fuel + 1, id =>
      match p.construct? id with
      | some (.label _ stmt) => p.throughLabels? fuel stmt
      | _ => some id

/-- The statement that the labels at `id` mark; `none` when the labels form a cycle. -/
def labelled? (p : Program) (id : NodeId) : Option NodeId :=
  p.throughLabels? (p.nodes.size + 1) id

end Program

end CoreC
