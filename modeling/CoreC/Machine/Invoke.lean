import CoreC.Machine.Parallel

/-! # Invoking continuations

A value is handed to every continuation at an address. A return hands it on to the
caller's continuation; everything else gives the tasks that go on.
-/

namespace CoreC.Machine

variable {ι φ : Type} [DecidableEq ι] [BEq φ] [Domain ι φ]

/-- Outcomes of testing the members of a set, in the order in which they occur. -/
def truths (values : ValueSet ι φ) : Except Fault (List Bool) :=
  values.items.foldlM (fun found v => do
    return (← v.truth).foldl (fun found b => if b ∈ found then found else found ++ [b]) found) []

def onTruths (value : Option (ValueSet ι φ)) (next : Bool → MachineM ι φ (List State)) :
    MachineM ι φ (List State) := do
  match value with
  | none => throw (.unsupported .noCondition)
  | some values => do
      let outcomes ← check (truths values)
      return (← outcomes.mapM next).flatten

/-- Writes a value to every destination of an assignment, weakly if there are
several. -/
def assignAll (dest : List Address) (scalar : Scalar) (values : ValueSet ι φ) :
    MachineM ι φ PUnit := do
  let converted ← check ((← get).store.convert scalar values)
  dest.forM fun address => onStore (Store.write address converted scalar (1 < dest.length))

/-- A returned value, converted to what the function returns. -/
def convertReturned (scalar : Option Scalar) (value : Option (ValueSet ι φ)) :
    MachineM ι φ (Option (ValueSet ι φ)) := do
  match value, scalar with
  | some values, some scalar => return some (← check ((← get).store.convert scalar values))
  | value, _ => return value

/-- Hands a value to one continuation. `left` holds the barriers that the task left
already; `forward` hands a value to the continuations at another address. -/
def invokeOne (forward : KontAddress → Option (ValueSet ι φ) → State → MachineM ι φ (List State))
    (value : Option (ValueSet ι φ)) (state : State) (kont : Continuation) (left : List Barrier) :
    MachineM ι φ (List State × List Barrier) := do
  let resumed : State := ⟨kont.control, kont.frame, kont.parent, state.thread, none⟩
  match kont.kind with
  | .assign dest scalar =>
      match value with
      | some values => assignAll dest scalar values
      | none => pure ⟨⟩
      return (← advance resumed, left)
  | .call => return (← advance resumed, left)
  | .branch thenBlock elseBlock =>
      let states ← onTruths value fun
        | true => return [← enterBlock resumed thenBlock]
        | false =>
            match elseBlock with
            | some block => return [← enterBlock resumed block]
            | none => advance resumed
      return (states, left)
  | .loop body =>
      let states ← onTruths value fun
        | true => return [← enterBlock resumed body]
        | false => advance resumed
      return (states, left)
  | .ret scalar =>
      let converted ← convertReturned scalar value
      return (← forward kont.parent converted resumed, left)
  | .release barrier mode =>
      let first := barrier ∉ left
      let released ← release state kont barrier mode first
      return (← released.mapM settle, if first then barrier :: left else left)

def invokeAll (forward : KontAddress → Option (ValueSet ι φ) → State → MachineM ι φ (List State))
    (value : Option (ValueSet ι φ)) (state : State) :
    List Continuation → List Barrier → MachineM ι φ (List State)
  | [], _ => return []
  | kont :: rest, left => do
      let (states, left) ← invokeOne forward value state kont left
      return states ++ (← invokeAll forward value state rest left)

/-- Hands a value to every continuation at an address, through at most `fuel`
returns. -/
def invokeWithin : Nat → KontAddress → Option (ValueSet ι φ) → State → MachineM ι φ (List State)
  | fuel, address, value, state => do
      if address = halt then
        match value with
        | some values =>
            if state.thread = 0 then modify fun m => { m with returned := some values.text }
        | none => pure ⟨⟩
        return []
      else
        let konts ← check ((← get).konts.read address)
        match fuel with
        | 0 => throw (.unsupported (.continuationCycle address))
        | fuel + 1 => invokeAll (invokeWithin fuel) value state konts []

/-- Hands a value to every continuation at an address. A chain of returns passes each
address once. -/
def invoke (address : KontAddress) (value : Option (ValueSet ι φ)) (state : State) :
    MachineM ι φ (List State) := do
  invokeWithin ((← get).konts.size + 1) address value state

end CoreC.Machine
