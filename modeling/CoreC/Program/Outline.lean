import CoreC.Fault
import CoreC.Program.Construct

/-! # The outline of a program

Tables that answer structural questions about a program: where a node stands, which
function it belongs to, what a block declares, and which node a name of a function,
a label or an aggregate stands for. They are built in one walk from the root, which
also checks the shape that the machine relies on: the nodes form a tree, bodies are
blocks, and a function returns in one place.
-/

namespace CoreC

/-- Where a node stands: its parent and its place among the parent's children. -/
structure Site where
  parent : NodeId
  index : Nat
  deriving DecidableEq

structure Outline where
  program : Program
  sites : Std.TreeMap NodeId Site
  /-- The function around every node reached from the root. -/
  owners : Std.TreeMap NodeId (Option NodeId)
  labels : List ((NodeId × String) × NodeId)
  functions : List (String × NodeId)
  aggregates : List (String × NodeId)
  /-- What each block declares directly, labelled declarations included. -/
  declarations : Std.TreeMap NodeId (List NodeId)

namespace Outline

def parent? (o : Outline) (id : NodeId) : Option NodeId := o.sites[id]?.map (·.parent)

def index (o : Outline) (id : NodeId) : Nat := (o.sites[id]?.map (·.index)).getD 0

def functionOf? (o : Outline) (id : NodeId) : Option NodeId := o.owners[id]?.join

def function? (o : Outline) (name : String) : Option NodeId := o.functions.lookup name

def aggregate? (o : Outline) (name : String) : Option NodeId := o.aggregates.lookup name

def label? (o : Outline) (function : NodeId) (name : String) : Option NodeId :=
  o.labels.lookup (function, name)

def declarationsIn (o : Outline) (block : NodeId) : List NodeId := o.declarations.getD block []

def declaredType? (o : Outline) (block : NodeId) (name : String) : Option CType :=
  (o.declarationsIn block).findSome? fun id =>
    match o.program.construct? id with
    | some (.decl declared type _) => if declared = name then some type else none
    | _ => none

/-! ## Building -/

def blank (p : Program) : Outline := ⟨p, ∅, ∅, [], [], [], ∅⟩

/-- A child that has to be a compound block. -/
def requireBlock (p : Program) (id : NodeId) (role : String) (child : NodeId) :
    Except Fault PUnit :=
  match p.construct? child with
  | some (.compound _) => .ok ⟨⟩
  | _ => .error (.shape (.blockExpected role id))

/-- The shape that a construct asks of its children. -/
def checkShape (p : Program) (id : NodeId) : Construct → Except Fault PUnit
  | .funcDef _ _ _ body => requireBlock p id "function body" body
  | .branch _ thenBlock elseBlock => do
      requireBlock p id "then branch" thenBlock
      match elseBlock with
      | some block => requireBlock p id "else branch" block
      | none => return ⟨⟩
  | .loop _ body => requireBlock p id "loop body" body
  | .parallel _ block => requireBlock p id "structured block" block
  | .critical _ block => requireBlock p id "structured block" block
  | .parallelFor _ _ _ _ _ _ _ body => requireBlock p id "loop body" body
  | .index array _ =>
      match p.construct? array with
      | some (.index ..) => .error (.shape .nestedIndex)
      | _ => .ok ⟨⟩
  | _ => .ok ⟨⟩

/-- Enters the names that a construct defines. Returns the function around its
children. -/
def define (o : Outline) (id : NodeId) (function : Option NodeId) :
    Construct → Except Fault (Outline × Option NodeId)
  | .funcDef name .. =>
      if (o.function? name).isSome then .error (.shape (.duplicateFunction name))
      else .ok ({ o with functions := (name, id) :: o.functions }, some id)
  | .structDecl name .. => .ok ({ o with aggregates := (name, id) :: o.aggregates }, function)
  | .label name _ =>
      match function with
      | none => .error (.shape (.labelOutsideFunction name))
      | some owner =>
          if (o.label? owner name).isSome then .error (.shape (.duplicateLabel name))
          else .ok ({ o with labels := ((owner, name), id) :: o.labels }, function)
  | _ => .ok (o, function)

def placeChildren (o : Outline) (id : NodeId) : List NodeId → Nat → Except Fault Outline
  | [], _ => .ok o
  | child :: rest, index =>
      if child < o.program.nodes.size then
        { o with sites := o.sites.insert child ⟨id, index⟩ }.placeChildren id rest (index + 1)
      else .error (.shape (.danglingNode child))

/-- The declaration that a statement is, possibly under labels. -/
def declaration? (p : Program) (item : NodeId) : Except Fault (Option NodeId) :=
  match p.labelled? item with
  | none => .error (.shape (.labelCycle item))
  | some id =>
      match p.construct? id with
      | some (.decl ..) => .ok (some id)
      | _ => .ok none

def declareItems (o : Outline) (id : NodeId) (construct : Construct) : Except Fault Outline :=
  match construct.items? with
  | none => .ok o
  | some items => do
      let declared ← items.mapM (declaration? o.program)
      return { o with declarations := o.declarations.insert id (declared.filterMap fun d => d) }

/-- Enters one node. Returns the function around its children. -/
def enterNode (o : Outline) (id : NodeId) (function : Option NodeId) (construct : Construct) :
    Except Fault (Outline × Option NodeId) := do
  let o := { o with owners := o.owners.insert id function }
  let (o, inner) ← o.define id function construct
  checkShape o.program id construct
  let o ← o.placeChildren id construct.children 0
  let o ← o.declareItems id construct
  return (o, inner)

/-- Walks the nodes of a stack and all below them, first to last. Every step enters a
new node, so the number of nodes bounds the steps. -/
def explore : Nat → List (NodeId × Option NodeId) → Outline → Except Fault Outline
  | _, [], o => .ok o
  | 0, (id, _) :: _, _ => .error (.shape (.sharedNode id))
  | fuel + 1, (id, function) :: rest, o =>
      match o.program.construct? id with
      | none => .error (.shape (.danglingNode id))
      | some construct =>
          if o.owners.contains id then .error (.shape (.sharedNode id))
          else do
            let (o, inner) ← o.enterNode id function construct
            explore fuel (construct.children.map (·, inner) ++ rest) o

/-- The functions that return, each from one place; the nodes are those still to be
looked at, with their numbers. -/
def checkReturns (o : Outline) : List (Node × NodeId) → List NodeId → Except Fault PUnit
  | [], _ => .ok ⟨⟩
  | (node, id) :: rest, returned =>
      match node.construct, o.functionOf? id with
      | .ret _, some function =>
          if function ∈ returned then .error (.shape (.severalReturns function))
          else o.checkReturns rest (function :: returned)
      | _, _ => o.checkReturns rest returned

def ofProgram (p : Program) : Except Fault Outline :=
  match p.construct? p.root with
  | some (.file _) => do
      let o ← explore (p.nodes.size + 1) [(p.root, none)] (blank p)
      o.checkReturns p.nodes.toList.zipIdx []
      return o
  | _ => .error (.shape .rootNotFile)

/-! ## Climbing -/

/-- Steps that suffice to climb from any node to the root. -/
def height (o : Outline) : Nat := o.program.nodes.size + 1

/-- The block and index that hold a statement, climbing from `current` through labels. -/
def positionFrom (o : Outline) (stmt : NodeId) : Nat → NodeId → Except Fault (NodeId × Nat)
  | 0, _ => .error (.shape (.notInBlock stmt))
  | fuel + 1, current =>
      match o.parent? current with
      | none => .error (.shape (.notInBlock stmt))
      | some parent =>
          match o.program.construct? parent with
          | some (.compound _) | some (.file _) => .ok (parent, o.index current)
          | some (.label ..) => o.positionFrom stmt fuel parent
          | _ => .error (.shape (.notInBlock stmt))

def position (o : Outline) (stmt : NodeId) : Except Fault (NodeId × Nat) :=
  o.positionFrom stmt o.height stmt

/-- The blocks from a node outward, up to the construct that owns them. -/
def blocksFrom (o : Outline) : Nat → NodeId → List NodeId
  | 0, _ => []
  | fuel + 1, id =>
      let outward := match o.parent? id with
        | some parent => o.blocksFrom fuel parent
        | none => []
      match o.program.construct? id with
      | some (.compound _) | some (.file _) => id :: outward
      | some construct => if construct.ownsBlock then [] else outward
      | none => outward

/-- The blocks around a block, itself included, innermost first, up to the body of the
function or the structured block that holds them. -/
def blockChain (o : Outline) (block : NodeId) : List NodeId := o.blocksFrom o.height block

end Outline

end CoreC
