import CoreC.Machine.Basic

/-! # Moving control

A block runs in a frame of its own. When control moves to another block, the frame
is found by going out to the nearest block around both and in again from there.
-/

namespace CoreC.Machine

variable {ι φ : Type}

/-- The frame one block further in. With `keep`, jumps from the same frame into the
same block share their frame. -/
def innerFrame (keep : Bool) (outer : FrameId) (block : NodeId) : MachineM ι φ FrameId := do
  let env := (← get).env
  match if keep then env.jumpFrame? outer block else none with
  | some frame => return frame
  | none =>
      let frame ← newFrame block (some outer)
      if keep then modify fun m => { m with env := m.env.keepJump outer block frame }
      return frame

/-- The frame for running statements of a block, seen from a frame. -/
def frameFor (start : FrameId) (block : NodeId) (keep : Bool) : MachineM ι φ FrameId := do
  let m ← get
  let blocks := m.outline.blockChain block
  let found ← check (Environment.findAlong (fun frame => blocks.idxOf? frame.scope)
    (m.env.chainOf start))
  match found with
  | none => throw (.unsupported (.unreachableBlock block start))
  | some (anchor, depth) => (blocks.take depth).reverse.foldlM (innerFrame keep) anchor

/-- Gives a task the frame of the block that its control moved to. -/
def settle (state : State) : MachineM ι φ State := do
  match state.control.block? with
  | none => return state
  | some block => return { state with frame := ← frameFor state.frame block false }

def advance (state : State) : MachineM ι φ (List State) := do
  let control ← check (state.control.successor (← get).outline)
  return [← settle (state.goto control)]

/-- Starts a block inside the one that runs: a branch, the body of a loop, or a nested
block. -/
def enterBlock (state : State) (block : NodeId) : MachineM ι φ State := do
  let frame ← frameFor state.frame block false
  let control ← check (Control.enter (← get).outline block)
  settle { state.goto control with frame }

def jump (state : State) (label : String) : MachineM ι φ (List State) := do
  let outline := (← get).outline
  match state.control.stmt? outline.program with
  | none => throw (.unsupported .gotoOutsideStatement)
  | some stmt =>
      match outline.functionOf? stmt with
      | none => throw (.unsupported (.gotoOutsideFunction label))
      | some function =>
          match outline.label? function label with
          | none => throw (.unsupported (.undefinedLabel label))
          | some target =>
              let (block, index) ← check (outline.position target)
              let frame ← frameFor state.frame block true
              return [{ state.goto (.stmt block index) with frame }]

end CoreC.Machine
