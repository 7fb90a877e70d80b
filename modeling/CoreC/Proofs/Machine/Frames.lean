import CoreC.Proofs.Machine.Shape

/-! # Frames and blocks

When activations do not share frames, a frame stays the activation of one block for good.
Looking for the frame of a block, be it by going out or by going in again, gives an
activation of that very block; so does a frame kept from an earlier jump. Continuations
only ever resume inside the tree of the program.
-/

namespace CoreC

open Environment Option Std.TreeMap Outline List

variable {anchor id outer start : FrameId} {scopes : List NodeId} {e' : Environment} {ι φ α : Type}

/-- Where the continuation may lead is inside the tree. -/
structure Continuation.Inside (o : Outline) (kont : Continuation) : Prop where
  control : kont.control.Inside o
  branch : ∀ {thenBlock elseBlock}, kont.kind = .branch thenBlock elseBlock →
    o.Reaches thenBlock ∧ ∀ block ∈ elseBlock, o.Reaches block
  loop : ∀ {body}, kont.kind = .loop body → o.Reaches body

namespace Environment

variable {e : Environment} {scope : NodeId}

/-- The frames from one outward to the anchor are activations of the given blocks. -/
inductive Mirrors (e : Environment) (anchor : FrameId) : FrameId → List NodeId → Prop where
  | anchor {frame : Frame} (hframe : e.frames[anchor]? = some frame) : Mirrors e anchor anchor [frame.scope]
  | inner {id outer : FrameId} {frame : Frame} {scopes : List NodeId} (hframe : e.frames[id]? = some frame)
      (hparent : frame.parent = some outer) (hrest : Mirrors e anchor outer scopes) :
      Mirrors e anchor id (frame.scope :: scopes)

theorem Mirrors.mono
    (hframes : ∀ {id : FrameId} {frame : Frame}, e.frames[id]? = some frame → e'.frames[id]? = some frame)
    (hmirrors : e.Mirrors anchor id scopes) : e'.Mirrors anchor id scopes := by
  induction hmirrors with
  | anchor hframe => exact .anchor (hframes hframe)
  | inner hframe hparent _ ih => exact .inner (hframes hframe) hparent ih

theorem Mirrors.exists_frame (hmirrors : e.Mirrors anchor id scopes) :
    ∃ frame, e.frames[id]? = some frame := by
  cases hmirrors with
  | anchor hframe | inner hframe => exact ⟨_, hframe⟩

theorem Mirrors.scope_eq (hmirrors : e.Mirrors anchor id (scope :: scopes)) :
    e.frames[id]?.map (·.scope) = some scope := by
  cases hmirrors with
  | anchor hframe | inner hframe => rw [hframe, map_some]

/-- Frames are not shared, and the frames kept for jumps are where these lead. -/
structure Laid (e : Environment) : Prop where
  policy : e.policy = .concrete
  /-- Numbers are given out in order. -/
  below : ∀ frame ∈ e.frames, frame < e.frames.size
  jumps : ∀ {anchor frame block}, e.jumpFrame? anchor block = some frame →
    e.frames[frame]?.map Frame.activation = some (block, some anchor)

theorem SameShape.laid (hsame : e.SameShape e') (he : e.Laid) : e'.Laid where
  policy := hsame.policy.trans he.policy
  below frame hframe := by
    rw [hsame.size]
    refine he.below frame ?_
    have hmap := congrArg isSome (hsame.frames frame)
    rw [isSome_map, isSome_map] at hmap
    rw [mem_iff_isSome_getElem?] at hframe ⊢
    rw [← hmap, hframe]
  jumps hjump := by
    rw [jumpFrame?, hsame.jumps] at hjump
    exact (hsame.frames _).trans (he.jumps hjump)

end Environment

variable {m m' : Machine ι φ}

namespace Machine

/-- The frame is an activation of the block. -/
def Activates (m : Machine ι φ) (block : NodeId) (frame : FrameId) : Prop :=
  m.env.frames[frame]?.map (·.scope) = some block

/-- Every activation of a block still is one, and inside the same frame. -/
def Grows (m m' : Machine ι φ) : Prop :=
  ∀ (frame : FrameId) (activation : NodeId × Option FrameId),
  m.env.frames[frame]?.map Frame.activation = some activation →
    m'.env.frames[frame]?.map Frame.activation = some activation

theorem growing : Evolution (Grows (ι := ι) (φ := φ)) where
  refl _ _ _ h := h
  trans hfirst hsecond frame activation h := hsecond frame activation (hfirst frame activation h)

theorem Grows.activates {block : NodeId} {frame : FrameId} (hgrows : Grows m m')
    (hframe : m.Activates block frame) : m'.Activates block frame := by
  obtain ⟨found, hfound, rfl⟩ := map_eq_some_iff.mp hframe
  obtain ⟨found', hfound', hsame⟩ := map_eq_some_iff.mp (hgrows frame found.activation (hfound ▸ rfl))
  exact map_eq_some_iff.mpr ⟨found', hfound', congrArg Prod.fst hsame⟩

/-- The machine runs the program of the outline in frames that are not shared. -/
structure Framed (o : Outline) (m : Machine ι φ) : Prop extends Laid m.env where
  outline : m.outline = o
  konts : ∀ {address : KontAddress} {konts : List Continuation},
    m.konts.slots[address]? = some konts → ∀ kont ∈ konts, kont.Inside o

/-- Besides, a frame comes after the one that it is inside of, continuations resume in frames that
there are, and variables have the units of their types. -/
structure Settled (o : Outline) (l : Layouts) (heap : HeapPolicy) (m : Machine ι φ) : Prop extends Framed o m where
  layouts : m.layouts = l
  ranked : m.env.Ranked
  hosted : ∀ {address : KontAddress} {konts : List Continuation}, m.konts.slots[address]? = some konts →
    ∀ kont ∈ konts, ∃ scope, m.Activates scope kont.frame
  housed : m.Housed heap

/-- From the machine, if it is settled, the operation leads to a settled one, in which all
activations go on; its result meets `Q` there. -/
abbrev Guards (o : Outline) (l : Layouts) (heap : HeapPolicy) (m : Machine ι φ) (Q : Machine ι φ → α → Prop)
    (act : MachineM ι φ α) : Prop := Secures (Settled o l heap) Grows (· = m) act fun a m' => Q m' a

variable {block : NodeId} {l : Layouts} {heap : HeapPolicy}

theorem Grows.exists_scope {frame : FrameId} (hgrows : Grows m m') (hframe : ∃ scope, m.Activates scope frame) :
    ∃ scope, m'.Activates scope frame := hframe.imp fun _ => hgrows.activates

theorem SameShape.grows (hsame : SameShape m m') : Grows m m' :=
  fun frame _ hframe => (hsame.env.frames frame).trans hframe

theorem Framed.sameShape {o : Outline} (hm : Framed o m) (hsame : SameShape m m') : Framed o m' where
  toLaid := hsame.env.laid hm.toLaid
  outline := hsame.outline.trans hm.outline
  konts hslot := by
    rw [hsame.konts] at hslot
    exact hm.konts hslot

/-- An operation that keeps the shape. -/
theorem Guards.inner {o : Outline} {P : α → Prop} {act : MachineM ι φ α} (hact : Shapely o l P act) :
    Guards o l heap m (fun _ => P) act := by
  rintro _ hm rfl
  obtain ⟨-, hsame, hresult⟩ := hact _ ⟨hm.outline, hm.layouts⟩ trivial
  refine ⟨⟨hm.toFramed.sameShape hsame, hsame.layouts.trans hm.layouts, hsame.env.ranked hm.ranked,
    fun hslot kont hkont => ?_,
    hsame.housed hm.housed⟩, hsame.grows, hresult⟩
  rw [hsame.konts] at hslot
  exact hsame.grows.exists_scope (hm.hosted hslot kont hkont)

/-! ## Finding frames -/

variable {o : Outline}

theorem newFrame_run (hpolicy : m.env.policy = .concrete) (scope : NodeId) (parent : Option FrameId) :
    newFrame scope parent m = .ok m.env.frames.size { m with env := m.env.grown scope parent } := by
  simp [newFrame, onEnv, push, shared?, grown, hpolicy]

/-- The second machine has more frames, and nothing else is different. -/
structure Includes (m m' : Machine ι φ) : Prop where
  frames : ∀ {id : FrameId} {frame : Frame}, m.env.frames[id]? = some frame → m'.env.frames[id]? = some frame
  jumps : ∀ {anchor frame block}, m.env.jumpFrame? anchor block = some frame →
    m'.env.jumpFrame? anchor block = some frame
  size : m.env.frames.size ≤ m'.env.frames.size
  apart : m' = { m with env := m'.env }

theorem including : Evolution (Includes (ι := ι) (φ := φ)) where
  refl _ := ⟨id, id, Nat.le_refl _, rfl⟩
  trans hfirst hsecond := ⟨fun h => hsecond.frames (hfirst.frames h), fun h => hsecond.jumps (hfirst.jumps h),
    Nat.le_trans hfirst.size hsecond.size, by rw [hsecond.apart, hfirst.apart]⟩

theorem Includes.grows (hincludes : Includes m m') : Grows m m' := by
  intro frame activation hframe
  obtain ⟨found, hfound, hsame⟩ := map_eq_some_iff.mp hframe
  exact map_eq_some_iff.mpr ⟨found, hincludes.frames hfound, hsame⟩

theorem Framed.includes (hm : Framed o m) (hincludes : Includes m m') (hlaid : m'.env.Laid) :
    Framed o m' := by
  rw [hincludes.apart] at hlaid ⊢
  exact ⟨hlaid, hm.outline, hm.konts⟩

theorem Settled.includes (hm : Settled o l heap m) (hincludes : Includes m m') (hlaid : m'.env.Laid)
    (hranked : m'.env.Ranked) : Settled o l heap m' := by
  have hframed := hm.toFramed.includes hincludes hlaid
  have hgrows := hincludes.grows
  have hholds {b : Binding} (hb : m.env.Holds b) : m'.env.Holds b :=
    hb.imp fun _ hframe => ⟨hincludes.frames hframe.1, hframe.2⟩
  rw [hincludes.apart] at hframed hgrows ⊢
  exact ⟨hframed, hm.layouts, hranked, fun hslot kont hkont => hgrows.exists_scope (hm.hosted hslot kont hkont),
    hm.housed.withEnv hholds⟩

theorem laid_grown (hm : m.env.Laid) (scope : NodeId) (parent : Option FrameId) :
    (m.env.grown scope parent).Laid ∧ Includes m { m with env := m.env.grown scope parent } := by
  have hincludes : Includes m { m with env := m.env.grown scope parent } :=
    ⟨fun hframe => getElem?_grown_of_some hm.below hframe, id,
      size_grown hm.below ▸ Nat.le_succ _, rfl⟩
  exact ⟨⟨hm.policy, below_grown hm.below, fun hjump => hincludes.grows _ _ (hm.jumps hjump)⟩, hincludes⟩

theorem below_of_activates (hm : m.env.Laid) {frame : FrameId} (hframe : m.Activates block frame) :
    frame < m.env.frames.size := by
  obtain ⟨found, hfound, -⟩ := map_eq_some_iff.mp hframe
  exact hm.below frame (mem_iff_isSome_getElem?.mpr (hfound ▸ rfl))

theorem guards_newFrame (m : Machine ι φ) (scope : NodeId) {parent : Option FrameId}
    (hparent : ∀ outer ∈ parent, ∃ scope, m.Activates scope outer) :
    Guards o l heap m (fun m frame => m.Activates scope frame) (newFrame scope parent) := by
  rintro _ hm rfl
  obtain ⟨hlaid, hincludes⟩ := laid_grown hm.toLaid scope parent
  rw [newFrame_run hm.policy, leaves_of_ok (newFrame_run hm.policy scope parent)]
  refine ⟨hm.includes hincludes hlaid (Ranked.grown hm.ranked fun outer houter => ?_),
    hincludes.grows, fun frame m' hrun => ?_⟩
  · obtain ⟨_, hactivates⟩ := hparent outer houter
    exact below_of_activates hm.toLaid hactivates
  · cases hrun
    simp [Activates, grown]

theorem jumpFrame?_keepJump (e : Environment) (anchor other frame : FrameId) (block inner : NodeId) :
    (e.keepJump anchor block frame).jumpFrame? other inner =
      if other = anchor ∧ inner = block then some frame else e.jumpFrame? other inner := by
  unfold keepJump jumpFrame?
  dsimp only
  rw [getD_insert]
  by_cases hother : other = anchor
  · subst hother
    by_cases hinner : inner = block
    · simp [hinner]
    · have hbeq : (inner == block) = false := by simpa using hinner
      simp [hinner, lookup_cons, hbeq]
  · simp [hother, Ne.symm hother]

/-- The frame one block further in is inside the other, and if it is kept a second jump finds it. -/
theorem innerFrame_run (hm : m.env.Laid) (keep : Bool) {frame : Frame}
    (houter : m.env.frames[outer]? = some frame) (block : NodeId) :
    ∃ frame m', innerFrame keep outer block m = .ok frame m' ∧ m'.env.Laid ∧ Includes m m' ∧
    (m.env.Ranked → m'.env.Ranked) ∧
      m'.env.frames[frame]?.map Frame.activation = some (block, some outer) ∧
      (keep = true → m'.env.jumpFrame? outer block = some frame) := by
  obtain ⟨hgrown, hincludes⟩ := laid_grown hm block (some outer)
  have hranked (hm' : m.env.Ranked) : (m.env.grown block (some outer)).Ranked := by
    refine hm'.grown fun other hother => ?_
    cases hother
    exact hm.below outer (mem_iff_isSome_getElem?.mpr (houter ▸ rfl))
  have hnested : (m.env.grown block (some outer)).frames[m.env.frames.size]?.map Frame.activation =
      some (block, some outer) := by simp [grown, Frame.activation]
  have hnew := newFrame_run hm.policy block (some outer)
  cases keep with
  | false =>
    refine ⟨_, _, ?_, hgrown, hincludes, hranked, hnested, by simp⟩
    exact bind_eq_ok.mpr ⟨m, m, rfl, bind_eq_ok.mpr ⟨_, _, hnew, rfl⟩⟩
  | true =>
    cases hkept : m.env.jumpFrame? outer block with
    | some frame =>
      refine ⟨frame, m, bind_eq_ok.mpr ⟨m, m, rfl, ?_⟩, hm, including.refl m, id, hm.jumps hkept, fun _ => hkept⟩
      simp only [↓reduceIte, hkept]
      rfl
    | none =>
      let kept : Machine ι φ :=
        { m with env := (m.env.grown block (some outer)).keepJump outer block m.env.frames.size }
      refine ⟨m.env.frames.size, kept, bind_eq_ok.mpr ⟨m, m, rfl, ?_⟩, ⟨hm.policy, hgrown.below, fun hjump => ?_⟩,
        ⟨hincludes.frames, fun hjump => ?_, hincludes.size, rfl⟩, hranked, hnested,
        fun _ => (jumpFrame?_keepJump ..).trans (if_pos ⟨rfl, rfl⟩)⟩
      · simp only [↓reduceIte, hkept]
        exact bind_eq_ok.mpr ⟨_, _, hnew, rfl⟩
      · rw [jumpFrame?_keepJump] at hjump
        split at hjump
        next hsame =>
          cases hjump
          rw [hsame.1, hsame.2]
          exact hnested
        next => exact hgrown.jumps hjump
      · rw [jumpFrame?_keepJump, if_neg]
        · exact hjump
        · rintro ⟨rfl, rfl⟩
          cases hkept.symm.trans hjump

/-- The frames on the way into blocks, outermost first, are each inside the one before. With `keep`
the same way leads to the same frame again. -/
theorem way_run (hm : m.env.Laid) (keep : Bool) (houter : m.env.Mirrors anchor outer scopes)
    (blocks : List NodeId) :
    ∃ frame m', blocks.foldlM (innerFrame keep) outer m = .ok frame m' ∧ m'.env.Laid ∧ Includes m m' ∧
      (m.env.Ranked → m'.env.Ranked) ∧ m'.env.Mirrors anchor frame (blocks.reverse ++ scopes) ∧
      (keep = true → blocks.foldlM (innerFrame true) outer m' = .ok frame m') := by
  induction blocks generalizing m outer scopes with
  | nil => exact ⟨outer, m, rfl, hm, including.refl m, id, houter, fun _ => rfl⟩
  | cons block rest ih =>
    obtain ⟨frame, hframe⟩ := houter.exists_frame
    obtain ⟨inner, m₁, hrun, hm₁, hincludes, hranked, hnested, hkept⟩ := innerFrame_run hm keep hframe block
    obtain ⟨found, hfound, hsame⟩ := map_eq_some_iff.mp hnested
    obtain ⟨rfl, hparent⟩ := Prod.mk.inj hsame
    have hinner : m₁.env.Mirrors anchor inner (found.scope :: scopes) :=
      .inner hfound hparent (houter.mono hincludes.frames)
    obtain ⟨frame, m₂, hrest, hm₂, hincludes₂, hranked₂, hmirrors, hagain⟩ := ih hm₁ hinner
    refine ⟨frame, m₂, bind_eq_ok.mpr ⟨inner, m₁, hrun, hrest⟩, hm₂, including.trans hincludes hincludes₂,
      hranked₂ ∘ hranked, ?_, ?_⟩
    · simpa using hmirrors
    · rintro rfl
      have hfirst : innerFrame true outer found.scope m₂ = .ok inner m₂ := by
        refine bind_eq_ok.mpr ⟨m₂, m₂, rfl, ?_⟩
        simp only [↓reduceIte, hincludes₂.jumps (hkept rfl)]
        rfl
      exact bind_eq_ok.mpr ⟨inner, m₂, hfirst, hagain rfl⟩

/-- The blocks around a block begin with itself. -/
theorem blockChain_eq_cons {o : Outline} (hitems : (o.program.blockItems? block).isSome) :
    ∃ outward, o.blockChain block = block :: outward := by
  obtain ⟨items, hitems⟩ := isSome_iff_exists.mp hitems
  obtain ⟨construct, hconstruct, hitems⟩ := bind_eq_some_iff.mp hitems
  unfold blockChain height blocksFrom
  rw [hconstruct]
  cases construct with
  | file | compound => exact ⟨_, rfl⟩
  | _ => cases hitems

/-- The nearest frame outward whose block is one around the given block, and how far out that is. -/
def anchorOf (o : Outline) (m : Machine ι φ) (start : FrameId) (block : NodeId) :
    Except Fault (Option (FrameId × Nat)) :=
  findAlong (fun frame => (o.blockChain block).idxOf? frame.scope) (m.env.chainOf start)

section

variable (houtline : m.outline = o)

include houtline

theorem frameFor_eq (start : FrameId) (keep : Bool) :
    frameFor start block keep m = match anchorOf o m start block with
      | .error fault => .error fault m
      | .ok none => .error (.unsupported (.unreachableBlock block start)) m
      | .ok (some (anchor, depth)) =>
        ((o.blockChain block).take depth).reverse.foldlM (innerFrame keep) anchor m := by
  subst houtline
  change EStateM.bind (check (anchorOf m.outline m start block)) _ m = _
  cases anchorOf m.outline m start block with
  | error fault => rfl
  | ok found =>
    cases found with
    | none => rfl
    | some place => rfl

/-- From the anchor the frames go in block by block. -/
theorem frameFor_run (hm : m.env.Laid) {depth : Nat}
    (hfound : anchorOf o m start block = .ok (some (anchor, depth))) (keep : Bool) :
    ∃ frame m', frameFor start block keep m = .ok frame m' ∧ m'.env.Laid ∧ Includes m m' ∧
    (m.env.Ranked → m'.env.Ranked) ∧
      m'.env.Mirrors anchor frame ((o.blockChain block).take (depth + 1)) ∧
      (keep = true → ((o.blockChain block).take depth).reverse.foldlM (innerFrame true) anchor m' = .ok frame m') := by
  obtain ⟨found, hmem, hdepth⟩ := mem_of_findAlong hfound
  have hanchor := Mirrors.anchor (getElem?_of_mem_chain hmem)
  obtain ⟨frame, m', hrun, hm', hincludes, hranked, hmirrors, hagain⟩ :=
    way_run hm keep hanchor ((o.blockChain block).take depth).reverse
  refine ⟨frame, m', ?_, hm', hincludes, hranked, ?_, hagain⟩
  · rw [frameFor_eq houtline, hfound]
    exact hrun
  · obtain ⟨hbound, hscope, -⟩ := idxOf?_eq_some_iff.mp hdepth
    rw [reverse_reverse] at hmirrors
    rwa [take_succ_eq_append_getElem hbound, hscope]

theorem frameFor_fails
    (hnone : ∀ place, anchorOf o m start block ≠ .ok (some place)) (keep : Bool) :
    ∃ fault, frameFor start block keep m = .error fault m := by
  rw [frameFor_eq houtline]
  cases hfound : anchorOf o m start block with
  | error fault => exact ⟨fault, rfl⟩
  | ok found =>
    cases found with
    | none => exact ⟨_, rfl⟩
    | some place => exact absurd hfound (hnone place)

/-- Looking for a frame fails, or makes those that are missing. -/
theorem frameFor_cases (hm : m.env.Laid) (start : FrameId) (block : NodeId) (keep : Bool) :
    (∃ fault, frameFor start block keep m = .error fault m) ∨
    ∃ frame m', frameFor start block keep m = .ok frame m' ∧ m'.env.Laid ∧ Includes m m' ∧
    (m.env.Ranked → m'.env.Ranked) ∧
      ∃ anchor depth, m'.env.Mirrors anchor frame ((o.blockChain block).take (depth + 1)) := by
  by_cases hfound : ∃ place, anchorOf o m start block = .ok (some place)
  · obtain ⟨⟨anchor, depth⟩, hfound⟩ := hfound
    obtain ⟨frame, m', hrun, hm', hincludes, hranked, hmirrors, -⟩ := frameFor_run houtline hm hfound keep
    exact .inr ⟨frame, m', hrun, hm', hincludes, hranked, anchor, depth, hmirrors⟩
  · exact .inl (frameFor_fails houtline (not_exists.mp hfound) keep)

end

/-- The frame found for a block is an activation of it. -/
theorem guards_frameFor (m : Machine ι φ) (start : FrameId) (block : NodeId) (keep : Bool) :
    Guards o l heap m (fun m frame => (∃ scope, m.Activates scope frame) ∧
        ((o.program.blockItems? block).isSome → m.Activates block frame)) (frameFor start block keep) := by
  rintro m hm rfl
  rcases frameFor_cases hm.outline hm.toLaid start block keep with
    ⟨fault, hrun⟩ | ⟨frame, m', hrun, hlaid, hincludes, hranked, anchor, depth, hmirrors⟩
  · rw [leaves_of_error hrun]
    exact ⟨hm, growing.refl m, fun _ _ hok => nomatch hrun.symm.trans hok⟩
  · rw [leaves_of_ok hrun]
    refine ⟨hm.includes hincludes hlaid (hranked hm.ranked), hincludes.grows, fun frame' m'' hrun' => ?_⟩
    cases hrun.symm.trans hrun'
    obtain ⟨found, hfound⟩ := hmirrors.exists_frame
    refine ⟨⟨found.scope, by rw [Activates, hfound]; rfl⟩, fun hitems => ?_⟩
    obtain ⟨outward, hchain⟩ := blockChain_eq_cons hitems
    rw [hchain, take_succ_cons] at hmirrors
    exact hmirrors.scope_eq

/-! ## States -/

/-- The task is inside the tree and in an activation, which is one of the block that it is in front
of a statement of, or else control drifted there. -/
structure Fits (o : Outline) (m : Machine ι φ) (state : State) : Prop where
  inside : state.control.Inside o
  frame : ∃ scope, m.Activates scope state.frame ∧
    ∀ block ∈ state.control.block?, scope ≠ block → state.control.Drifts o

theorem Fits.later {state : State} (hgrows : Grows m m') (hstate : Fits o m state) : Fits o m' state := by
  obtain ⟨scope, hactivates, hdrifts⟩ := hstate.frame
  exact ⟨hstate.inside, scope, hgrows.activates hactivates, hdrifts⟩

/-- All tasks fit. -/
def AllFit (o : Outline) (states : List State) (m : Machine ι φ) : Prop :=
  ∀ state ∈ states, Fits o m state

theorem AllFit.later {states : List State} (hgrows : Grows m m') (hstates : AllFit o states m) :
    AllFit o states m' :=
  fun state hstate => (hstates state hstate).later hgrows

variable {state : State}

theorem Fits.of_activates (hinside : state.control.Inside o) (hthere : ∃ scope, m.Activates scope state.frame)
    (hframe : ∀ block ∈ state.control.block?, m.Activates block state.frame) : Fits o m state := by
  obtain ⟨scope, hactivates⟩ := hthere
  refine ⟨hinside, scope, hactivates, fun block hblock hne => absurd ?_ hne⟩
  exact some.inj (hactivates.symm.trans (hframe block hblock))

end Machine

end CoreC
