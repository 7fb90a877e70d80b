import CoreC.Proofs.Program.Lineage

/-! # The way out of a block

Control that runs off the end of a block climbs through the tree until there is a statement left
or a construct that owns the blocks. Every climb ends, for each step leads to a block further out.
It never leaves the construct that owns the block, and it gets as far as that only where each
block on the way is at its end. Out of the body of a loop it leads to the loop.
-/

namespace CoreC

open Relation Outline Program

namespace Outline

/-- Where a statement stands, if looked for from the second node on without a bound. -/
inductive Stands (o : Outline) (stmt : NodeId) : NodeId → Except Fault (NodeId × Nat) → Prop where
  | item {current parent : NodeId} (hparent : o.parent? current = some parent)
      (hblock : (o.program.blockItems? parent).isSome) : Stands o stmt current (.ok (parent, o.index current))
  | label {current parent marked : NodeId} {name : String} {result : Except Fault (NodeId × Nat)}
      (hparent : o.parent? current = some parent) (hlabel : o.program.construct? parent = some (.label name marked))
      (hrest : Stands o stmt parent result) : Stands o stmt current result
  | nowhere {current : NodeId} (hparent : ∀ parent ∈ o.parent? current, o.program.blockItems? parent = none ∧
      ∀ name marked, o.program.construct? parent ≠ some (.label name marked)) :
      Stands o stmt current (.error (.shape (.notInBlock stmt)))

/-- No block around the node, up to what owns them, has an item behind the one that leads to it. -/
def EndsAt (o : Outline) (id : NodeId) : Prop :=
  ∀ block items child, o.Reaches block → o.program.blockItems? block = some items →
    o.program.Nests block child → ReflTransGen o.program.Nests child id → items.getLast? = some child

variable {o : Outline} {stmt current block parent id : NodeId} {index depth : Nat} {items : List NodeId}

theorem nests_of_item (hitems : o.program.blockItems? block = some items) (hitem : items[index]? = some id) :
    o.program.Nests block id := by
  obtain ⟨construct, hconstruct, hitems⟩ := Option.bind_eq_some_iff.mp hitems
  refine nests_of_construct? hconstruct ⟨index, construct, hconstruct, ?_⟩ ?_
  · rwa [children_of_items? hitems]
  · cases construct <;> first | rfl | cases hitems

theorem Holds.nests (hholds : o.Holds block index id) : TransGen o.program.Nests block id := by
  obtain ⟨-, items, item, hitems, hitem, hpath⟩ := hholds
  exact .head' (nests_of_item hitems hitem) (ReflTransGen.mono (fun _ _ h => h.1) _ _ hpath)

namespace Grown

variable (ho : o.Grown)

include ho

theorem reaches_of_nests (hid : o.Reaches id) (hpath : ReflTransGen o.program.Nests id current) :
    o.Reaches current :=
  ho.reaches_iff.mpr ((ho.reaches_iff.mp hid).trans (ReflTransGen.mono (fun _ _ h => h.1) _ _ hpath))

/-! ## Every climb ends -/

theorem depth_child (hparent : o.Reaches parent) (hchild : o.program.Child parent id)
    (hdepth : o.ancestor? depth id = some o.program.root) :
    ∃ less, depth = less + 1 ∧ o.ancestor? less parent = some o.program.root := by
  cases depth with
  | zero =>
    cases hdepth
    exact absurd hchild (ho.not_child_root (ho.reaches_iff.mp hparent))
  | succ depth =>
    rw [ancestor?, ho.parent?_of_child (ho.reaches_iff.mp hparent) hchild] at hdepth
    exact ⟨depth, rfl, hdepth⟩

theorem depth_lt {outer : NodeId} (houter : o.Reaches outer) (hbelow : TransGen o.program.Nests outer id)
    (hdepth : o.ancestor? depth id = some o.program.root) :
    ∃ less < depth, o.ancestor? less outer = some o.program.root := by
  induction hbelow generalizing depth with
  | single hnests =>
    obtain ⟨less, rfl, hless⟩ := ho.depth_child houter hnests.1 hdepth
    exact ⟨less, Nat.lt_succ_self less, hless⟩
  | tail hpath hnests ih =>
    obtain ⟨more, rfl, hmore⟩ := ho.depth_child (ho.reaches_of_nests houter hpath.to_reflTransGen) hnests.1 hdepth
    obtain ⟨less, hless, hfound⟩ := ih hmore
    exact ⟨less, Nat.lt_succ_of_lt hless, hfound⟩

theorem stands_positionFrom {fuel : Nat} (hdepth : o.ancestor? depth current = some o.program.root)
    (hfuel : depth < fuel) : o.Stands stmt current (o.positionFrom stmt fuel current) := by
  induction fuel generalizing depth current with
  | zero => omega
  | succ fuel ih =>
    unfold positionFrom
    split
    next hparent => exact .nowhere (by simp [hparent])
    next parent hparent =>
      obtain ⟨hreached, hchild⟩ := ho.tree.childAt_of_parent? hparent
      split
      next hblock => exact .item hparent (blockItems?_eq hblock ▸ rfl)
      next hblock => exact .item hparent (blockItems?_eq hblock ▸ rfl)
      next hlabel =>
        obtain ⟨less, rfl, hless⟩ := ho.depth_child hreached ⟨_, hchild⟩ hdepth
        exact .label hparent hlabel (ih hless (Nat.lt_of_succ_lt_succ hfuel))
      next hcompound hfile hlabel =>
        refine .nowhere fun other hother => ?_
        cases hparent.symm.trans hother
        refine ⟨?_, hlabel⟩
        obtain ⟨construct, hconstruct, -⟩ := hchild
        rw [blockItems?_eq hconstruct]
        cases construct <;> first | rfl | exact absurd hconstruct (hcompound _) | exact absurd hconstruct (hfile _)

/-- The search for the place of a statement ends, in the tree or not. -/
theorem stands_position (stmt : NodeId) : o.Stands stmt stmt (o.position stmt) := by
  cases hparent : o.parent? stmt with
  | none =>
    rw [position, height, positionFrom, hparent]
    exact .nowhere (by simp [hparent])
  | some parent =>
    obtain ⟨hreached, hchild⟩ := ho.tree.childAt_of_parent? hparent
    obtain ⟨depth, hbound, hdepth⟩ := ho.ancestor?_eq_root_within ((ho.reaches_iff.mp hreached).tail ⟨_, hchild⟩)
    exact ho.stands_positionFrom hdepth (Nat.lt_succ_of_lt hbound)

/-! ## Blocks at their end -/

theorem endsAt_of_not_nests (hnot : ∀ parent, o.Reaches parent → ¬o.program.Nests parent block) :
    o.EndsAt block := by
  intro outer items child houter _ hnests hpath
  obtain ⟨last, hpath, hlast⟩ := TransGen.tail'_iff.mp (.head' hnests hpath)
  exact absurd hlast (hnot last (ho.reaches_of_nests houter hpath))

/-- A node that nothing follows in its parent is at the end where the parent is. -/
theorem endsAt_child (hparent : o.Reaches parent) (hchild : o.program.Child parent id)
    (hlast : ∀ items, o.program.blockItems? parent = some items → items.getLast? = some id)
    (hends : o.EndsAt parent) : o.EndsAt id := by
  intro block items child hblock hitems hnests hpath
  have honly {other} (hother : o.Reaches other) (hnests : o.program.Nests other id) : other = parent :=
    ho.parent_unique (ho.reaches_iff.mp hother) (ho.reaches_iff.mp hparent) hnests.1 hchild
  rcases ReflTransGen.cases_tail hpath with rfl | ⟨last, hpath, hlast⟩
  · cases honly hblock hnests
    exact hlast items hitems
  · cases honly (ho.reaches_of_nests hblock (.head hnests hpath)) hlast
    exact hends block items child hblock hitems hnests hpath

theorem endsAt_of_holds (hholds : o.Holds block index id) (hitems : o.program.blockItems? block = some items)
    (hlength : items.length ≤ index + 1) (hends : o.EndsAt block) : o.EndsAt id := by
  obtain ⟨hblock, items', item, hitems', hitem, hpath⟩ := hholds
  cases hitems.symm.trans hitems'
  induction hpath with
  | refl =>
    refine ho.endsAt_child hblock (nests_of_item hitems hitem).1 (fun other hother => ?_) hends
    cases hitems.symm.trans hother
    have hindex := (List.getElem?_eq_some_iff.mp hitem).1
    rw [List.getLast?_eq_getElem?, show items.length - 1 = index by omega, hitem]
  | tail hpath hstep ih =>
    have hbelow : o.Holds block index _ := ⟨hblock, items, item, hitems, hitem, hpath⟩
    refine ho.endsAt_child (ho.reaches_of_nests hblock hbelow.nests.to_reflTransGen) hstep.1.1
      (fun other hother => ?_) ih
    cases hstep.2.symm.trans hother

end Grown

end Outline

namespace Control

/-- The block has a statement at the given place. -/
def Ready (o : Outline) (block : NodeId) (index : Nat) : Prop :=
  ∃ items, o.program.blockItems? block = some items ∧ index < items.length

/-- The block has no statement at the given place and behind it. -/
def Spent (o : Outline) (block : NodeId) (index : Nat) : Prop :=
  ∃ items, o.program.blockItems? block = some items ∧ items.length ≤ index

/-- What a climb out of blocks without statements left comes to, if it has no bound. -/
inductive Climbs (o : Outline) : Control → Except Fault Control → Prop where
  | invoke : Climbs o .invoke (.ok .invoke)
  | stay {block : NodeId} {index : Nat} (hready : Ready o block index) :
      Climbs o (.stmt block index) (.ok (.stmt block index))
  | stuck {block : NodeId} {index : Nat} {fault : Fault} (hspent : Spent o block index)
      (hafter : afterBlock o block = .error fault) : Climbs o (.stmt block index) (.error fault)
  | out {block : NodeId} {index : Nat} {outer : Control} {result : Except Fault Control}
      (hspent : Spent o block index) (hafter : afterBlock o block = .ok outer) (hrest : Climbs o outer result) :
      Climbs o (.stmt block index) result

/-- What is told of a climb that starts at a place in a block. -/
structure Ascends (o : Outline) (block : NodeId) (index : Nat) (result : Except Fault Control) : Prop where
  ends : Climbs o (.stmt block index) result
  /-- The climb ends in front of a statement and does not go beyond what owns the block. Control is
  handed over only if all blocks up to there are at their ends. -/
  lands : ∀ next, result = .ok next → (next = .invoke ∧ Spent o block index ∧ o.EndsAt block) ∨
    ∃ outer i, next = .stmt outer i ∧ Ready o outer i ∧ ReflTransGen o.program.Nests outer block
  loop : ∀ loop cond, o.Reaches loop → o.program.construct? loop = some (.loop cond block) →
    Spent o block index → result = (o.position loop).map fun place => .stmt place.1 place.2

variable {o : Outline} {block : NodeId} {index : Nat}

theorem ready_of_holds {id : NodeId} (hholds : o.Holds block index id) : Ready o block index := by
  obtain ⟨-, items, item, hitems, hitem, -⟩ := hholds
  exact ⟨items, hitems, (List.getElem?_eq_some_iff.mp hitem).1⟩

theorem Spent.not_ready (hspent : Spent o block index) : ¬Ready o block index := by
  rintro ⟨items, hitems, hindex⟩
  obtain ⟨items', hitems', hlength⟩ := hspent
  cases hitems.symm.trans hitems'
  omega

theorem climb_of_ready {fuel : Nat} (hready : Ready o block index) :
    climb o fuel (.stmt block index) = .ok (.stmt block index) := by
  obtain ⟨items, hitems, hindex⟩ := hready
  unfold climb
  rw [hitems]
  exact if_pos hindex

theorem climb_of_spent {fuel : Nat} (hspent : Spent o block index) :
    climb o (fuel + 1) (.stmt block index) = (afterBlock o block).bind (climb o fuel) := by
  obtain ⟨items, hitems, hlength⟩ := hspent
  rw [climb, hitems]
  exact if_neg (Nat.not_lt.mpr hlength)

/-- By induction on the bound, which is larger than the depth of the block. -/
theorem climbs_climb (ho : o.Grown) {depth fuel : Nat} (hblock : o.HasBlock block)
    (hdepth : o.ancestor? depth block = some o.program.root) (hfuel : depth < fuel) :
    Climbs o (.stmt block index) (climb o fuel (.stmt block index)) := by
  induction fuel generalizing block index depth with
  | zero => omega
  | succ fuel ih =>
    obtain ⟨items, hitems⟩ := Option.isSome_iff_exists.mp hblock.2
    rcases Nat.lt_or_ge index items.length with hindex | hlength
    · rw [climb_of_ready ⟨items, hitems, hindex⟩]
      exact .stay ⟨items, hitems, hindex⟩
    · rw [climb_of_spent ⟨items, hitems, hlength⟩]
      cases hafter : afterBlock o block with
      | error fault => exact .stuck ⟨items, hitems, hlength⟩ hafter
      | ok next =>
        refine .out ⟨items, hitems, hlength⟩ hafter ?_
        change Climbs o next (climb o fuel next)
        obtain ⟨rfl, -⟩ | ⟨outer, place, hholds, hnext⟩ := afterBlock_eq_ok ho.tree hafter
        · unfold climb
          exact .invoke
        · obtain ⟨less, hless, hfound⟩ := ho.depth_lt hholds.1 hholds.nests hdepth
          rcases hnext with rfl | rfl
          · exact ih hholds.hasBlock hfound (by omega)
          · exact ih hholds.hasBlock hfound (by omega)

theorem Climbs.lands (ho : o.Grown) {control next : Control} {result : Except Fault Control}
    (hclimbs : Climbs o control result) (hcontrol : control = .stmt block index) (hresult : result = .ok next) :
    (next = .invoke ∧ Spent o block index ∧ o.EndsAt block) ∨
      ∃ outer i, next = .stmt outer i ∧ Ready o outer i ∧ ReflTransGen o.program.Nests outer block := by
  induction hclimbs generalizing block index with
  | invoke => cases hcontrol
  | @stay block index hready =>
    cases hcontrol
    cases hresult
    exact .inr ⟨block, index, rfl, hready, .refl⟩
  | stuck => cases hresult
  | @out block index _ _ hspent hafter hrest ih =>
    cases hcontrol
    obtain ⟨rfl, hnot⟩ | ⟨outer, place, hholds, hnext⟩ := afterBlock_eq_ok ho.tree hafter
    · cases hrest
      cases hresult
      exact .inl ⟨rfl, hspent, ho.endsAt_of_not_nests hnot⟩
    · have hfar {i} {far} (hready : Ready o far i) (hpath : ReflTransGen o.program.Nests far outer) :
          ∃ outer i', Control.stmt far i = .stmt outer i' ∧ Ready o outer i' ∧
            ReflTransGen o.program.Nests outer block :=
        ⟨far, i, rfl, hready, hpath.trans hholds.nests.to_reflTransGen⟩
      rcases hnext with rfl | rfl
      · obtain ⟨rfl, ⟨items, hitems, hlength⟩, hends⟩ | ⟨far, i, rfl, hready, hpath⟩ := ih rfl hresult
        · exact .inl ⟨rfl, hspent, ho.endsAt_of_holds hholds hitems hlength hends⟩
        · exact .inr (hfar hready hpath)
      · -- In front of a loop there is the loop to go on with.
        obtain ⟨rfl, hnone, -⟩ | ⟨far, i, rfl, hready, hpath⟩ := ih rfl hresult
        · exact absurd (ready_of_holds hholds) hnone.not_ready
        · exact .inr (hfar hready hpath)

theorem normalize_loop (ho : o.Grown) {loop cond : NodeId} (hloop : o.Reaches loop)
    (hconstruct : o.program.construct? loop = some (.loop cond block)) (hspent : Spent o block index) :
    normalize o (.stmt block index) = (o.position loop).map fun place => .stmt place.1 place.2 := by
  have hafter : afterBlock o block = (o.position loop).map fun place => .stmt place.1 place.2 := by
    unfold afterBlock
    rw [ho.tree.parent?_of_child hloop hconstruct (.tail _ (.head _))]
    dsimp only
    rw [hconstruct]
  rw [normalize, height, climb_of_spent hspent, hafter]
  cases hposition : o.position loop with
  | error fault => rfl
  | ok place => exact climb_of_ready (ready_of_holds (ho.tree.holds_of_positionFrom hposition))

theorem ascends_normalize (ho : o.Grown) (hblock : o.HasBlock block) (index : Nat) :
    Ascends o block index (normalize o (.stmt block index)) := by
  obtain ⟨depth, hbound, hdepth⟩ := ho.ancestor?_eq_root_within (ho.reaches_iff.mp hblock.1)
  have hclimbs : Climbs o (.stmt block index) (normalize o (.stmt block index)) :=
    climbs_climb ho hblock hdepth (Nat.lt_succ_of_lt hbound)
  exact ⟨hclimbs, fun _ => hclimbs.lands ho rfl, fun _ _ => normalize_loop ho⟩

/-- Entering a block, going on behind one of its places and going on behind a statement all end,
where the rules for climbs say. A statement that stands in no block has nothing behind it. -/
theorem ascends_of_ofProgram {p : Program} (hmade : ofProgram p = .ok o) :
    (∀ block items, p.Reached block → p.blockItems? block = some items → Ascends o block 0 (enter o block) ∧
      ∀ index, Ascends o block (index + 1) (successor o (.stmt block index))) ∧
    ∀ stmt, o.Stands stmt stmt (o.position stmt) ∧
      (∀ fault, o.position stmt = .error fault → afterStmt o stmt = .error fault) ∧
      ∀ block index, o.position stmt = .ok (block, index) → Ascends o block (index + 1) (afterStmt o stmt) := by
  have ho := grown_ofProgram hmade
  obtain rfl := (tree_ofProgram hmade).2.1
  refine ⟨fun block items hblock hitems => ?_, fun stmt => ⟨ho.stands_position stmt, fun fault hfault => ?_, ?_⟩⟩
  · have hhas : o.HasBlock block := ⟨ho.reaches_iff.mpr hblock, Option.isSome_of_eq_some hitems⟩
    exact ⟨ascends_normalize ho hhas 0, fun index => ascends_normalize ho hhas (index + 1)⟩
  · rw [afterStmt, hfault]
    rfl
  · intro block index hposition
    rw [afterStmt, hposition]
    exact ascends_normalize ho (ho.tree.hasBlock_position hposition) (index + 1)

open Builder

/-- A loop that ends with a marked branch, which ends with an empty block. -/
def nestedEnds : Program := program do
  let branch ← ifElse (← int 1) (← Builder.block [← Builder.block []]) none
  let loop ← whileLoop (← int 1) (← Builder.block [← label "end" branch])
  return [← function "main" .int [] [← empty, loop]]

/-- Out of the empty block control climbs to the loop. -/
theorem nestedEnds_ascends : ∃ o, ofProgram nestedEnds = .ok o ∧
    (enter o 1).toOption = some (.stmt 9 1) ∧ Ascends o 1 0 (enter o 1) := by
  have hmade : (ofProgram nestedEnds).toOption.any (fun o =>
      o.owners.contains 1 ∧ (enter o 1).toOption = some (.stmt 9 1)) = true := by decide +kernel
  cases ho : ofProgram nestedEnds with
  | error fault =>
    rw [ho] at hmade
    cases hmade
  | ok o =>
    rw [ho] at hmade
    obtain ⟨hreaches, henter⟩ := of_decide_eq_true hmade
    have hreached := (grown_ofProgram ho).reaches_iff.mp hreaches
    rw [(tree_ofProgram ho).2.1] at hreached
    exact ⟨o, rfl, henter, ((ascends_of_ofProgram ho).1 1 [] hreached rfl).1⟩

end Control

end CoreC
