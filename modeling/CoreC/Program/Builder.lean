import CoreC.Program.Construct

/-! # Building programs

Nodes are made bottom-up: children first, then the node that refers to them. Each
node is given the next line number. Every method returns the index of the node it
makes last.
-/

namespace CoreC

structure Builder where
  nodes : Array Node

namespace Builder

abbrev Build := StateM Builder

def new : Builder := ⟨#[]⟩

def push (construct : Construct) : Build NodeId := fun b =>
  (b.nodes.size, ⟨b.nodes.push ⟨construct, ⟨b.nodes.size + 1, 1⟩⟩⟩)

/-- Wraps the top-level items in a file node and ends the program there. -/
def finish (b : Builder) (items : List NodeId) : Program :=
  let (root, done) := push (.file items) b
  ⟨done.nodes, root⟩

/-- The program whose top-level items some steps make. -/
def program (items : Build (List NodeId)) : Program :=
  let (items, b) := items new
  b.finish items

def int (value : Int) : Build NodeId := push (.literal (.int value .int))

def typedInt (value : Int) (type : IntType) : Build NodeId := push (.literal (.int value type))

def charLit (code : UInt8) : Build NodeId := push (.literal (.char code))

def float (value : Double) : Build NodeId := push (.literal (.float value .double))

def string (text : String) : Build NodeId := push (.literal (.str text))

def id (name : String) : Build NodeId := push (.id name)

def binary (op : BinOp) (left right : NodeId) : Build NodeId := push (.binary op left right)

def unary (op : UnOp) (operand : NodeId) : Build NodeId := push (.unary op operand)

def cast (type : CType) (operand : NodeId) : Build NodeId := push (.cast type operand)

def sizeOf (type : CType) : Build NodeId := push (.sizeOf type)

def index (array position : NodeId) : Build NodeId := push (.index array position)

def call (name : String) (args : List NodeId) : Build NodeId := do
  let callee ← id name
  push (.call callee args)

def printf (format : String) (args : List NodeId) : Build NodeId := do
  let format ← string format
  call "printf" (format :: args)

def decl (name : String) (type : CType) (init : Option NodeId) : Build NodeId :=
  push (.decl name type init)

def assign (target value : NodeId) : Build NodeId := push (.assignment target value)

def assignTo (name : String) (value : NodeId) : Build NodeId := do
  let target ← id name
  assign target value

def block (items : List NodeId) : Build NodeId := push (.compound items)

def ifElse (cond thenBlock : NodeId) (elseBlock : Option NodeId) : Build NodeId :=
  push (.branch cond thenBlock elseBlock)

def whileLoop (cond body : NodeId) : Build NodeId := push (.loop cond body)

def goto (label : String) : Build NodeId := push (.goto label)

def label (name : String) (stmt : NodeId) : Build NodeId := push (.label name stmt)

def ret (value : Option NodeId) : Build NodeId := push (.ret value)

def empty : Build NodeId := push .empty

def function (name : String) (returns : CType) (params : List Member) (items : List NodeId) :
    Build NodeId := do
  let body ← block items
  push (.funcDef name returns params body)

def structDecl (name : String) (fields : List Member) (union : Bool) : Build NodeId :=
  push (.structDecl name fields union)

def parallel (clauses : List Clause) (items : List NodeId) : Build NodeId := do
  let body ← block items
  push (.parallel clauses body)

/-- A parallel loop that counts `var` up from `init` to below `bound`. -/
def parallelFor (clauses : List Clause) (var : String) (init bound : NodeId)
    (items : List NodeId) : Build NodeId := do
  let step ← int 1
  let body ← block items
  push (.parallelFor clauses var init .lt bound .add step body)

def critical (items : List NodeId) : Build NodeId := do
  let body ← block items
  push (.critical none body)

end Builder

end CoreC
