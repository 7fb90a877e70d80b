import CoreC.Machine.Jump
import CoreC.Proofs.Effect

/-! # Moving control

When a task moves to another statement or block, frames may be made for it, and nothing else
of the machine changes.
-/

namespace CoreC.Machine

variable {ι φ α : Type}

/-- The machines differ in their frames only. -/
def OnlyFrames (m m' : Machine ι φ) : Prop := ∃ env, m' = { m with env }

theorem onlyFrames : Evolution (OnlyFrames (ι := ι) (φ := φ)) where
  refl m := ⟨m.env, rfl⟩
  trans hfirst hsecond := by
    obtain ⟨env, rfl⟩ := hfirst
    obtain ⟨env', rfl⟩ := hsecond
    exact ⟨env', rfl⟩

theorem onlyFrames_onEnv (act : Environment → Except Fault (α × Environment)) :
    Keeps OnlyFrames (onEnv act : MachineM ι φ α) := by
  intro m
  unfold leaves onEnv
  cases act m.env with
  | ok result => exact ⟨result.2, rfl⟩
  | error fault => exact onlyFrames.refl m

theorem onlyFrames_check (result : Except Fault α) :
    Keeps OnlyFrames (check result : MachineM ι φ α) := by
  cases result with
  | ok a => exact .pure onlyFrames a
  | error fault => exact .throw onlyFrames fault

theorem onlyFrames_innerFrame (keep : Bool) (outer : FrameId) (block : NodeId) :
    Keeps OnlyFrames (innerFrame keep outer block : MachineM ι φ FrameId) := by
  refine .bind onlyFrames (.get onlyFrames) fun m => ?_
  cases keep with
  | false => exact .bind onlyFrames (onlyFrames_onEnv _) fun frame => .pure onlyFrames frame
  | true =>
    dsimp only
    split
    · exact .pure onlyFrames _
    · refine .bind onlyFrames (onlyFrames_onEnv _) fun frame => ?_
      refine .bind onlyFrames ?_ fun _ => .pure onlyFrames frame
      exact fun m => ⟨m.env.keepJump outer block frame, rfl⟩

theorem onlyFrames_frameFor (start : FrameId) (block : NodeId) (keep : Bool) :
    Keeps OnlyFrames (frameFor start block keep : MachineM ι φ FrameId) := by
  refine .bind onlyFrames (.get onlyFrames) fun m => ?_
  refine .bind onlyFrames (onlyFrames_check _) fun found => ?_
  split
  · exact .throw onlyFrames _
  · exact .foldlM onlyFrames _ _ fun outer block => onlyFrames_innerFrame keep outer block

theorem onlyFrames_settle (state : State) : Keeps OnlyFrames (settle state : MachineM ι φ State) := by
  unfold settle
  split
  · exact .pure onlyFrames _
  · exact .bind onlyFrames (onlyFrames_frameFor _ _ _) fun frame => .pure onlyFrames _

theorem onlyFrames_advance (state : State) :
    Keeps OnlyFrames (advance state : MachineM ι φ (List State)) := by
  refine .bind onlyFrames (.get onlyFrames) fun m => ?_
  refine .bind onlyFrames (onlyFrames_check _) fun control => ?_
  exact .bind onlyFrames (onlyFrames_settle _) fun settled => .pure onlyFrames _

theorem onlyFrames_of_advance_ok {state : State} {states : List State} {m m' : Machine ι φ}
    (hrun : advance state m = .ok states m') : OnlyFrames m m' := by
  rw [← leaves_of_ok hrun]
  exact onlyFrames_advance state m

end CoreC.Machine
