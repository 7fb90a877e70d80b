import CoreC.Machine.Invoke

/-! # Steps

A step takes one task from a statement, an expression or the end of a block to the
tasks that go on from there.
-/

namespace CoreC.Machine

variable {ι φ : Type} [DecidableEq ι] [BEq φ] [Domain ι φ]

/-- Fills an array of characters from a string, and with zeros behind it. -/
def fillArray (address : Address) (type : CType) (text : List UInt8) : MachineM ι φ PUnit := do
  let length := type.length?.getD 0
  if length < text.length then throw (.memory (.longInitializer address))
  else
    let layouts := (← get).layouts
    match ← check (layouts.scalar type.element) with
    | .int int =>
        let size ← check (layouts.sizeOf type.element)
        let padded := text ++ List.replicate (length - text.length) 0
        onStore (Store.writeChars address int size padded 0)
    | _ => throw (.typeMismatch (.characterArray type.element))

/-- Gives an object its first value at once, as for globals and aggregates. -/
def fillObject (state : State) (address : Address) (type : CType) (init : NodeId) :
    MachineM ι φ PUnit := do
  if type.isArray then
    match (← get).program.construct? init with
    | some (.literal (.str text)) => fillArray address type (Text.toUtf8 text)
    | _ => throw (.unsupported .arrayInitializer)
  else if type.isAggregate then
    match ← addresses state init with
    | [source] => copyObject source address type
    | _ => throw (.unsupported .severalSources)
  else
    let scalar ← check ((← get).layouts.scalar type)
    let values ← eval state init
    let converted ← check ((← get).store.convert scalar values)
    onStore (Store.write address converted scalar false)

/-- Runs a declaration. Prototypes of functions bind nothing. -/
def runDeclaration (state : State) (name : String) (type : CType) (init : Option NodeId) :
    MachineM ι φ (List State) := do
  if type.isFunctionDesignator then advance state
  else
    let (binding, fresh) ← onEnv fun env => env.declare state.frame name type
    let address ←
      if fresh ∨ (← get).settings.frames = .zeroCfa then allocateBinding binding
      else pure binding.address
    match init with
    | none => advance state
    | some init =>
        if type.isArray ∨ type.isAggregate then
          fillObject state address type init
          advance state
        else
          let scalar ← check ((← get).layouts.scalar type)
          descend state init (.assign [address] scalar)

/-- Runs an assignment. Aggregates are copied at once. -/
def runAssignment (state : State) (target value : NodeId) : MachineM ι φ (List State) := do
  let type ← staticType state.frame target
  let dest ← addresses state target
  if type.isAggregate then
    let sources ← addresses state value
    dest.forM fun address => sources.forM fun source => copyObject source address type
    advance state
  else
    let scalar ← check ((← get).layouts.scalar type)
    descend state value (.assign dest scalar)

/-- The class that a return statement converts to; none for functions that return
nothing or an aggregate. -/
def returnScalar (m : Machine ι φ) (stmt : NodeId) : Except Fault (Option Scalar) :=
  match (m.outline.functionOf? stmt).bind m.program.construct? with
  | some (.funcDef _ returns _ _) =>
      if returns.isVoid ∨ returns.isAggregate then .ok none
      else (m.layouts.scalar returns).map some
  | _ => .ok none

/-- Binds the parameters of a function to the values of its arguments. -/
def bindParameters (frame : FrameId) : List (Member × ValueSet ι φ) → MachineM ι φ PUnit
  | [] => pure ⟨⟩
  | (param, values) :: rest => do
      let address ← declareLocal frame param.name param.type
      if param.type.isAggregate then throw (.unsupported (.aggregateParameter param.name))
      else
        writeAs address param.type values
        bindParameters frame rest

def callFunction (state : State) (function : NodeId) (args : List NodeId) (kont : KontAddress) :
    MachineM ι φ State := do
  match (← get).program.construct? function with
  | some (.funcDef name _ params body) =>
      if params.length ≠ args.length then
        throw (.argumentCount name params.length args.length)
      else
        let values ← args.mapM (eval state)
        let frame ← newFrame body none
        bindParameters frame (params.zip values)
        let control ← check (Control.enter (← get).outline body)
        return ⟨control, frame, kont, state.thread, none⟩
  | _ => throw (.unsupported (.notFunction function))

def runCall (state : State) (call callee : NodeId) (args : List NodeId) :
    MachineM ι φ (List State) := do
  match ← userFunction (eval state) state.frame callee with
  | some function =>
      let kont ← pushKont ⟨.call, state.control, state.frame, state.kont⟩ state.thread
      return [← callFunction state function args kont]
  | none =>
      let _ ← eval state call
      advance state

def execute (state : State) (stmt : NodeId) : MachineM ι φ (List State) := do
  match ← constructAt stmt with
  | .decl name type init => runDeclaration state name type init
  | .assignment target value => runAssignment state target value
  | .branch cond thenBlock elseBlock => descend state cond (.branch thenBlock elseBlock)
  | .loop cond body => descend state cond (.loop body)
  | .compound _ => return [← enterBlock state stmt]
  | .ret (some value) => do
      let scalar ← check ((← get).returnScalar stmt)
      descend state value (.ret scalar)
  | .ret none => invoke state.kont none state
  | .goto label => jump state label
  | .label .. => throw (.shape (.labelCycle stmt))
  | .empty | .structDecl .. | .funcDef .. => advance state
  | .call callee args => runCall state stmt callee args
  | .parallel clauses block => startTeam state stmt clauses block
  | .parallelFor clauses var init condOp bound stepOp step body =>
      startLoop state stmt clauses var init condOp bound stepOp step body
  | .critical _ block => enterCritical state stmt block
  | .file _ => throw (.unsupported .fileStatement)
  | .id _ | .literal _ | .binary .. | .unary .. | .cast .. | .sizeOf _ | .index .. => do
      let _ ← eval state stmt
      advance state

/-- Evaluates an expression for the task's continuation. A call of a function of the
program returns there by itself. -/
def stepExpression (state : State) (node : NodeId) : MachineM ι φ (List State) := do
  let function ← match (← get).program.construct? node with
    | some (.call callee _) => userFunction (eval state) state.frame callee
    | _ => pure none
  match function, (← get).program.construct? node with
  | some function, some (.call _ args) => return [← callFunction state function args state.kont]
  | _, _ => do
      let values ← eval state node
      invoke state.kont (some values) state

def step (state : State) : MachineM ι φ (List State) := do
  match state.control with
  | .invoke => invoke state.kont none state
  | .expr node => stepExpression state node
  | .stmt block index =>
      match state.control.stmt? (← get).program with
      | some stmt => execute state stmt
      | none => throw (.shape (.noStatement block index))

/-- Declares a global and gives it its first value. Objects start as zeros. -/
def declareGlobal (setup : State) (item : NodeId) : MachineM ι φ PUnit := do
  match (← get).program.construct? item with
  | some (.decl name type init) =>
      if type.isFunctionDesignator then return ⟨⟩
      else
        let address ← declareLocal setup.frame name type
        onStore (Store.zeroFill address.base)
        match init with
        | some init => fillObject setup address type init
        | none => return ⟨⟩
  | _ => return ⟨⟩

/-- Sets up the globals and gives the task that runs `main`. -/
def start : MachineM ι φ State := do
  let p := (← get).program
  let global ← newFrame p.root none
  ((p.blockItems? p.root).getD []).forM (declareGlobal ⟨.invoke, global, halt, 0, none⟩)
  onEnv fun env => (env.setGlobal global).map (PUnit.unit, ·)
  match (← get).outline.function? "main" with
  | none => throw (.undefinedFunction "main")
  | some main =>
      match p.construct? main with
      | some (.funcDef _ _ params body) =>
          let frame ← newFrame body none
          params.forM fun param => do
            let _ ← declareLocal frame param.name param.type
          let control ← check (Control.enter (← get).outline body)
          return ⟨control, frame, halt, 0, none⟩
      | _ => throw (.unsupported .mainNotFunction)

end CoreC.Machine
