import CoreC.Proofs.Machine.FrameScope
import CoreC.Proofs.Program.Lineage

/-! # Frames for jumps

A jump goes out to the nearest frame whose block is around the target, then in again block by
block. The frames it ends up in mirror the blocks of the program, whatever was there before
stays as it was, and frames that are kept are found again by the same jump.
-/

namespace CoreC

open Std.TreeMap Environment List

namespace Environment

/-- So many frames outward from the first one is the nearest activation of one of the blocks. -/
inductive Nearest (e : Environment) (blocks : List NodeId) : Nat → FrameId → FrameId → Prop where
  | here {id : FrameId} {frame : Frame} (hframe : e.frames[id]? = some frame) (hscope : frame.scope ∈ blocks) :
      Nearest e blocks 0 id id
  | outward {steps : Nat} {id outer anchor : FrameId} {frame : Frame} (hframe : e.frames[id]? = some frame)
      (hscope : frame.scope ∉ blocks) (hparent : frame.parent = some outer)
      (hrest : Nearest e blocks steps outer anchor) : Nearest e blocks (steps + 1) id anchor

variable {e : Environment} {blocks : List NodeId} {start anchor : FrameId}

theorem Nearest.steps_eq {steps other : Nat} {anchor' : FrameId} (hnear : e.Nearest blocks steps start anchor)
    (hother : e.Nearest blocks other start anchor') : steps = other := by
  induction hnear generalizing other with
  | here hframe hscope =>
    cases hother with
    | here => rfl
    | outward hframe' hscope' =>
      cases hframe.symm.trans hframe'
      exact absurd hscope hscope'
  | outward hframe hscope hparent _ ih =>
    cases hother with
    | here hframe' hscope' =>
      cases hframe.symm.trans hframe'
      exact absurd hscope' hscope
    | outward hframe' _ hparent' hrest' =>
      cases hframe.symm.trans hframe'
      cases hparent.symm.trans hparent'
      rw [ih hrest']

/-- Frames on the way differ in how far they are from the end, so the way is no longer than
there are frames. -/
theorem Nearest.steps_lt (hbelow : ∀ id ∈ e.frames, id < e.frames.size) {steps : Nat}
    (hnear : e.Nearest blocks steps start anchor) : steps < e.frames.size := by
  refine lt_of_ranked (R := fun rank id => ∃ anchor, e.Nearest blocks rank id anchor) ?_ ?_ ?_ ⟨anchor, hnear⟩
  · rintro rank other id ⟨_, hrank⟩ ⟨_, hother⟩
    exact hrank.steps_eq hother
  · rintro rank id ⟨anchor, hrank⟩
    cases hrank with
    | outward _ _ _ hrest => exact ⟨_, anchor, hrest⟩
  · rintro rank id ⟨_, hrank⟩
    cases hrank with
    | here hframe | outward hframe => exact hbelow id (mem_iff_isSome_getElem?.mpr (hframe ▸ rfl))

/-- Looking along a chain that is long enough finds the nearest. -/
theorem Nearest.findAlong {steps fuel : Nat} (hnear : e.Nearest blocks steps start anchor) (hfuel : steps < fuel) :
    ∃ depth, findAlong (fun frame => blocks.idxOf? frame.scope) (e.chain fuel start) = .ok (some (anchor, depth)) := by
  induction fuel generalizing steps start with
  | zero => omega
  | succ fuel ih =>
    cases hnear with
    | here hframe hscope =>
      obtain ⟨depth, hdepth⟩ := Option.isSome_iff_exists.mp (isSome_idxOf?.mpr hscope)
      exact ⟨depth, by simp [chain, hframe, findAlong, hdepth]⟩
    | outward hframe hscope hparent hrest =>
      obtain ⟨depth, hfound⟩ := ih hrest (by omega)
      exact ⟨depth, by simpa [chain, hframe, hparent, findAlong, idxOf?_eq_none_iff.mpr hscope]⟩

/-- What is found along a chain is the nearest, also where there are more frames. -/
theorem nearest_of_findAlong {e' : Environment}
    (hframes : ∀ {id : FrameId} {frame : Frame}, e.frames[id]? = some frame → e'.frames[id]? = some frame)
    {fuel fuel' depth : Nat} (hfuel : fuel ≤ fuel')
    (hfound : findAlong (fun frame => blocks.idxOf? frame.scope) (e.chain fuel start) = .ok (some (anchor, depth))) :
    (∃ steps, e.Nearest blocks steps start anchor) ∧
      findAlong (fun frame => blocks.idxOf? frame.scope) (e'.chain fuel' start) = .ok (some (anchor, depth)) := by
  induction fuel generalizing fuel' start with
  | zero => cases hfound
  | succ fuel ih =>
    obtain ⟨fuel', rfl⟩ := Nat.exists_eq_add_one.mpr (Nat.zero_lt_of_lt hfuel)
    cases hframe : e.frames[start]? with
    | none => simp [chain, hframe, findAlong] at hfound
    | some frame =>
      rw [chain, hframe] at hfound
      rw [chain, hframes hframe]
      simp only [findAlong] at hfound ⊢
      cases hscope : blocks.idxOf? frame.scope with
      | some found =>
        rw [hscope] at hfound
        cases hfound
        exact ⟨⟨0, .here hframe (isSome_idxOf?.mp (hscope ▸ rfl))⟩, rfl⟩
      | none =>
        rw [hscope] at hfound
        cases hparent : frame.parent with
        | none => simp [hparent, findAlong] at hfound
        | some outer =>
          rw [hparent] at hfound
          obtain ⟨⟨steps, hrest⟩, hagain⟩ := ih (Nat.le_of_succ_le_succ hfuel) hfound
          exact ⟨⟨steps + 1, .outward hframe (idxOf?_eq_none_iff.mp hscope) hparent hrest⟩, hagain⟩

end Environment

namespace Machine

variable {ι φ : Type} {o : Outline} {m : Machine ι φ}

/-- A jump into a block finds a frame exactly if some activation of a block around it is further
out. The frame activates the block, the frames from there out to the nearest such activation are
those of the blocks around it one by one, and every other frame stays as it was. With `keep` the
same jump finds the frame again and makes none. -/
theorem frameFor_mirrors (hm : Framed o m) {block : NodeId} (hblock : (o.program.blockItems? block).isSome)
    (start : FrameId) (keep : Bool) :
    ((∃ frame m', frameFor start block keep m = .ok frame m') ↔
      ∃ steps anchor, m.env.Nearest (o.blockChain block) steps start anchor) ∧
    ∀ frame m', frameFor start block keep m = .ok frame m' →
      Framed o m' ∧ m'.Activates block frame ∧
      (∃ steps anchor scopes, m.env.Nearest (o.blockChain block) steps start anchor ∧
        m'.env.Mirrors anchor frame scopes ∧ scopes <+: o.blockChain block) ∧
      (∀ (id : FrameId) old, m.env.frames[id]? = some old → m'.env.frames[id]? = some old) ∧
      (keep = true → frameFor start block true m' = .ok frame m') := by
  have hplace {frame : FrameId} {m' : Machine ι φ} (hrun : frameFor start block keep m = .ok frame m') :
      ∃ place, anchorOf o m start block = .ok (some place) := by
    by_contra hnone
    obtain ⟨fault, hfails⟩ := frameFor_fails hm.outline (not_exists.mp hnone) keep
    cases hrun.symm.trans hfails
  refine ⟨⟨?_, ?_⟩, ?_⟩
  · rintro ⟨frame, m', hrun⟩
    obtain ⟨place, hfound⟩ := hplace hrun
    obtain ⟨steps, hnear⟩ := (nearest_of_findAlong id (Nat.le_refl _) hfound).1
    exact ⟨steps, place.1, hnear⟩
  · rintro ⟨steps, anchor, hnear⟩
    obtain ⟨depth, hfound⟩ := hnear.findAlong (Nat.lt_succ_of_lt (hnear.steps_lt hm.below))
    obtain ⟨frame, m', hrun, -⟩ := frameFor_run hm.outline hm.toLaid hfound keep
    exact ⟨frame, m', hrun⟩
  · intro frame m' hrun
    obtain ⟨place, hfound⟩ := hplace hrun
    obtain ⟨frame', m'', hrun', hlaid, hincludes, -, hmirrors, hway⟩ := frameFor_run hm.outline hm.toLaid hfound keep
    cases hrun.symm.trans hrun'
    have hm' := hm.includes hincludes hlaid
    obtain ⟨⟨steps, hnear⟩, hagain⟩ :=
      nearest_of_findAlong hincludes.frames (Nat.succ_le_succ hincludes.size) hfound
    refine ⟨hm', ?_, ⟨steps, place.1, _, hnear, hmirrors, take_prefix _ _⟩, fun _ _ => hincludes.frames, ?_⟩
    · obtain ⟨outward, hchain⟩ := blockChain_eq_cons hblock
      rw [hchain, take_succ_cons] at hmirrors
      exact hmirrors.scope_eq
    · intro hkeep
      rw [frameFor_eq hm'.outline, show anchorOf o m' start block = _ from hagain]
      exact hway hkeep

/-- A block beside another that has one inside. -/
def beside : Program := Builder.program do
  let aside ← Builder.block []
  return [← Builder.function "main" .int [] [aside, ← Builder.block [← Builder.block []]]]

/-- From the first block a jump leads one frame out and two blocks in again, each time to the
same frame. -/
theorem beside_frameFor_mirrors : ∃ (o : Outline) (m m' : Machine Int Double) (start anchor frame : FrameId),
    Framed o m ∧ o.blockChain 1 = [1, 2, 3] ∧ m.env.Nearest (o.blockChain 1) 1 start anchor ∧
    frameFor start 1 true m = .ok frame m' ∧ m'.Activates 1 frame ∧ frameFor start 1 true m' = .ok frame m' := by
  have hmade : (Machine.new beside {} : Except Fault (Machine Int Double)).toOption.any (fun m =>
      m.outline.blockChain 1 = [1, 2, 3] ∧ (m.outline.program.blockItems? 1).isSome) = true := by decide +kernel
  cases hnew : (Machine.new beside {} : Except Fault (Machine Int Double)) with
  | error fault =>
    rw [hnew] at hmade
    cases hmade
  | ok m =>
    rw [hnew] at hmade
    obtain ⟨hchain, hblock⟩ := of_decide_eq_true hmade
    have hm := (settled_new rfl hnew).2.toFramed
    obtain ⟨hlaid, hfirst⟩ := laid_grown hm.toLaid 3 none
    have hbody := hm.includes hfirst hlaid
    obtain ⟨hlaid, hincludes⟩ := laid_grown hbody.toLaid 0 (some m.env.frames.size)
    have haside := hbody.includes hincludes hlaid
    have hnear := Nearest.here (hincludes.frames getElem?_insert_self)
      (show 3 ∈ m.outline.blockChain 1 by simp [hchain])
    replace hnear := hnear.outward getElem?_insert_self (by simp [hchain]) rfl
    obtain ⟨hfinds, hmirrors⟩ := frameFor_mirrors haside hblock (m.env.grown 3 none).frames.size true
    obtain ⟨frame, m', hrun⟩ := hfinds.mpr ⟨_, _, hnear⟩
    obtain ⟨-, hactivates, -, -, hagain⟩ := hmirrors frame m' hrun
    exact ⟨_, _, m', _, _, frame, haside, hchain, hnear, hrun, hactivates, hagain rfl⟩

end Machine

end CoreC
