import CoreC.Program.Outline

/-! # Control

What a task does next: run a statement of a block, evaluate an expression out of
order, or hand over to its continuation. Running off the end of a block climbs to
the statement after it; the body of a loop climbs back to the loop, which tests its
condition again.
-/

namespace CoreC

inductive Control where
  | stmt (block : NodeId) (index : Nat)
  /-- An expression whose value goes to the continuation. -/
  | expr (node : NodeId)
  /-- The block of a function or of a directive is done. -/
  | invoke
  deriving DecidableEq

namespace Control

def text : Control → String
  | .stmt block index =>
      "Stmt \x7b block: " ++ toString block ++ ", index: " ++ toString index ++ " \x7d"
  | .expr node => "Expr(" ++ toString node ++ ")"
  | .invoke => "Invoke"

/-- The node to run, found through labels. -/
def stmt? (p : Program) : Control → Option NodeId
  | .stmt block index => do
      let items ← p.blockItems? block
      let item ← items[index]?
      p.labelled? item
  | .expr node => some node
  | .invoke => none

def block? : Control → Option NodeId
  | .stmt block _ => some block
  | _ => none

def afterBlock (o : Outline) (block : NodeId) : Except Fault Control :=
  match o.parent? block with
  | none => .ok .invoke
  | some parent =>
      match o.program.construct? parent with
      | none => .ok .invoke
      | some (.compound _) | some (.file _) => .ok (.stmt parent (o.index block + 1))
      | some (.label ..) | some (.branch ..) =>
          (o.position parent).map fun (outer, index) => .stmt outer (index + 1)
      | some (.loop ..) => (o.position parent).map fun (outer, index) => .stmt outer index
      | some construct =>
          if construct.ownsBlock then .ok .invoke
          else .error (.shape (.blockNested block construct.tag))

/-- Climbs out of blocks that have no statement left. -/
def climb (o : Outline) : Nat → Control → Except Fault Control
  | fuel, .stmt block index =>
      match o.program.blockItems? block with
      | none => .error (.shape (.notBlock block))
      | some items =>
          if index < items.length then .ok (.stmt block index)
          else
            match fuel with
            | 0 => .error (.shape (.notInBlock block))
            | fuel + 1 => do climb o fuel (← afterBlock o block)
  | _, control => .ok control

/-- A place in a block, or what follows when the block ends there. -/
def normalize (o : Outline) (control : Control) : Except Fault Control := climb o o.height control

def successor (o : Outline) : Control → Except Fault Control
  | .stmt block index => normalize o (.stmt block (index + 1))
  | .expr node => .error (.shape (.noSuccessor node))
  | .invoke => .ok .invoke

def afterStmt (o : Outline) (stmt : NodeId) : Except Fault Control := do
  let (block, index) ← o.position stmt
  normalize o (.stmt block (index + 1))

/-- The first statement of a block, or what follows an empty one. -/
def enter (o : Outline) (block : NodeId) : Except Fault Control := normalize o (.stmt block 0)

end Control

end CoreC
