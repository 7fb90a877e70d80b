import CoreC.Proofs.Program.Tree
import Mathlib.Logic.Relation

/-! # Where control goes

Control that starts inside the tree of a program stays there, and in front of a statement of
a block. The body of a function and the block of a directive are entered at their first
statement or not at all: out of an empty one control does not climb any further.
-/

namespace CoreC

open Option Program List

variable {fuel : Nat} {place : NodeId × Nat}

namespace Program

variable (p : Program)

/-- The node is the child of the other one at the given place. -/
def ChildAt (id : NodeId) (index : Nat) (child : NodeId) : Prop :=
  ∃ construct, p.construct? id = some construct ∧ construct.children[index]? = some child

/-- The second node is a child of the first. -/
def Child (id child : NodeId) : Prop := ∃ index, p.ChildAt id index child

/-- The second node is a child of the first, which does not own the blocks below it. -/
def Nests (id child : NodeId) : Prop :=
  p.Child id child ∧ ∀ construct, p.construct? id = some construct → construct.ownsBlock = false

variable {p} {id child : NodeId} {construct : Construct}

theorem child_iff :
    p.Child id child ↔ ∃ construct, p.construct? id = some construct ∧ child ∈ construct.children := by
  constructor
  · rintro ⟨index, construct, hconstruct, hchild⟩
    exact ⟨construct, hconstruct, mem_of_getElem? hchild⟩
  · rintro ⟨construct, hconstruct, hchild⟩
    obtain ⟨index, hindex⟩ := getElem?_of_mem hchild
    exact ⟨index, construct, hconstruct, hindex⟩

theorem blockItems?_eq (hconstruct : p.construct? id = some construct) :
    p.blockItems? id = construct.items? := by rw [blockItems?, hconstruct, bind_some]

theorem nests_of_construct? (hconstruct : p.construct? id = some construct) (hchild : p.Child id child)
    (howns : construct.ownsBlock = false) : p.Nests id child := by
  refine ⟨hchild, fun other hother => ?_⟩
  cases hconstruct.symm.trans hother
  exact howns

end Program

namespace Outline

variable {o : Outline} {construct : Construct} {block id child parent stmt : NodeId} {index : Nat}

/-- The node is a block of the tree. -/
def HasBlock (o : Outline) (block : NodeId) : Prop :=
  o.Reaches block ∧ (o.program.blockItems? block).isSome

/-- The block has an item at the given place that leads to the node, with no block in between. -/
def Holds (o : Outline) (block : NodeId) (index : Nat) (id : NodeId) : Prop :=
  o.Reaches block ∧ ∃ items item, o.program.blockItems? block = some items ∧ items[index]? = some item ∧
    Relation.ReflTransGen (fun id child => o.program.Nests id child ∧ o.program.blockItems? id = none) item id

theorem Holds.below (hholds : o.Holds block index id) (hconstruct : o.program.construct? id = some construct)
    (hchild : o.program.Child id child) (howns : construct.ownsBlock = false) (hplain : construct.items? = none) :
    o.Holds block index child := by
  obtain ⟨hblock, items, item, hitems, hitem, hpath⟩ := hholds
  refine ⟨hblock, items, item, hitems, hitem, hpath.tail ⟨nests_of_construct? hconstruct hchild howns, ?_⟩⟩
  rw [blockItems?_eq hconstruct, hplain]

theorem Holds.hasBlock (hholds : o.Holds block index id) : o.HasBlock block := by
  obtain ⟨hblock, items, -, hitems, -⟩ := hholds
  exact ⟨hblock, isSome_of_eq_some hitems⟩

/-- The items of a block are its children. -/
theorem children_of_items? {items : List NodeId}
    (hitems : construct.items? = some items) : construct.children = items := by
  cases construct with
  | file | compound =>
    cases hitems
    rfl
  | _ => cases hitems

section

variable (ho : o.Tree)

include ho

theorem Tree.parent?_of_child
    (hid : o.Reaches id) (hconstruct : o.program.construct? id = some construct)
    (hchild : child ∈ construct.children) : o.parent? child = some id := by
  obtain ⟨i, hi⟩ := getElem?_of_mem hchild
  simp [parent?, ho.site hid hconstruct hi]

theorem Tree.reaches_child
    (hid : o.Reaches id) (hconstruct : o.program.construct? id = some construct)
    (hchild : child ∈ construct.children) : o.Reaches child :=
  (ho.child hid hconstruct hchild).resolve_right not_mem_nil

theorem Tree.childAt_of_parent? (hparent : o.parent? id = some parent) :
    o.Reaches parent ∧ o.program.ChildAt parent (o.index id) id := by
  obtain ⟨site, hsite, rfl⟩ := map_eq_some_iff.mp hparent
  obtain ⟨hreached, hplace⟩ := ho.parent hsite
  refine ⟨hreached, ?_⟩
  rw [Outline.index, hsite]
  exact hplace

theorem Tree.reaches_throughLabels (hid : o.Reaches id)
    (hstmt : o.program.throughLabels? fuel id = some stmt) : o.Reaches stmt := by
  induction fuel generalizing id with
  | zero => cases hstmt
  | succ fuel ih =>
    unfold throughLabels? at hstmt
    split at hstmt
    next name marked hlabel =>
      exact ih (ho.reaches_child hid hlabel mem_cons_self) hstmt
    next =>
      cases hstmt
      exact hid

theorem Tree.holds_of_parent? (hparent : o.parent? id = some parent)
    (hconstruct : o.program.construct? parent = some construct) (hblock : construct.items?.isSome) :
    o.Holds parent (o.index id) id := by
  obtain ⟨hreached, construct', hconstruct', hitem⟩ := ho.childAt_of_parent? hparent
  cases hconstruct.symm.trans hconstruct'
  obtain ⟨items, hitems⟩ := isSome_iff_exists.mp hblock
  rw [children_of_items? hitems] at hitem
  exact ⟨hreached, items, id, (blockItems?_eq hconstruct).trans hitems, hitem, .refl⟩

theorem Tree.holds_of_positionFrom
    (hposition : o.positionFrom stmt fuel id = .ok (block, index)) : o.Holds block index id := by
  induction fuel generalizing id with
  | zero => cases hposition
  | succ fuel ih =>
    unfold positionFrom at hposition
    split at hposition
    · cases hposition
    next parent hparent =>
      split at hposition
      next hblock =>
        cases hposition
        exact ho.holds_of_parent? hparent hblock rfl
      next hblock =>
        cases hposition
        exact ho.holds_of_parent? hparent hblock rfl
      next hlabel => exact (ih hposition).below hlabel ⟨_, (ho.childAt_of_parent? hparent).2⟩ rfl rfl
      next => cases hposition

theorem Tree.hasBlock_position
    (hposition : o.position stmt = .ok (block, index)) : o.HasBlock block :=
  (ho.holds_of_positionFrom hposition).hasBlock

end

/-- More steps up find the same place. -/
theorem positionFrom_mono {stmt current : NodeId} {more : Nat}
    (hposition : o.positionFrom stmt fuel current = .ok place) (hmore : fuel ≤ more) :
    o.positionFrom stmt more current = .ok place := by
  induction fuel generalizing more current with
  | zero => cases hposition
  | succ fuel ih =>
    obtain _ | more := more
    · omega
    unfold positionFrom at hposition ⊢
    split at hposition
    · cases hposition
    · split at hposition
      · exact hposition
      · exact hposition
      · exact ih hposition (Nat.le_of_succ_le_succ hmore)
      · cases hposition

/-- The statement that labels mark stands where the outermost of them stands. -/
theorem Tree.positionFrom_throughLabels (ho : o.Tree) {origin id stmt : NodeId} {steps : Nat}
    (hid : o.Reaches id) (hstmt : o.program.throughLabels? fuel id = some stmt)
    (hposition : o.positionFrom origin steps id = .ok place) :
    ∃ labels < fuel, o.positionFrom origin (steps + labels) stmt = .ok place := by
  induction fuel generalizing id steps with
  | zero => cases hstmt
  | succ fuel ih =>
    unfold throughLabels? at hstmt
    split at hstmt
    next name marked hlabel =>
      have hmarked : o.positionFrom origin (steps + 1) marked = .ok place := by
        unfold positionFrom
        rw [ho.parent?_of_child hid hlabel mem_cons_self]
        dsimp only
        rw [hlabel]
        exact hposition
      obtain ⟨labels, hlabels, hfound⟩ :=
        ih (ho.reaches_child hid hlabel mem_cons_self) hstmt hmarked
      refine ⟨labels + 1, Nat.succ_lt_succ hlabels, ?_⟩
      rw [← Nat.add_assoc, Nat.add_right_comm]
      exact hfound
    next =>
      cases hstmt
      exact ⟨0, Nat.succ_pos fuel, hposition⟩

/-- The statement in front of control is a node of the tree, and that is its place. -/
theorem Tree.place_of_stmt? (ho : o.Tree) {block stmt : NodeId} {index : Nat}
    (hblock : o.Reaches block)
    (hstmt : (Control.stmt block index).stmt? o.program = some stmt) :
    o.Reaches stmt ∧ o.position stmt = .ok (block, index) := by
  obtain ⟨items, hitems, hstmt⟩ := bind_eq_some_iff.mp hstmt
  obtain ⟨item, hitem, hstmt⟩ := bind_eq_some_iff.mp hstmt
  obtain ⟨construct, hconstruct, hitems⟩ := bind_eq_some_iff.mp hitems
  have hchild : construct.children[index]? = some item := by rw [children_of_items? hitems, hitem]
  have hreached := ho.reaches_child hblock hconstruct (mem_of_getElem? hchild)
  have hsite := ho.site hblock hconstruct hchild
  have hposition : o.positionFrom stmt 1 item = .ok (block, index) := by
    unfold positionFrom
    simp only [parent?, Outline.index, hsite, map_some, getD_some]
    rw [hconstruct]
    cases construct with
    | file | compound => rfl
    | _ => cases hitems
  obtain ⟨labels, hlabels, hfound⟩ := ho.positionFrom_throughLabels hreached hstmt hposition
  refine ⟨ho.reaches_throughLabels hreached hstmt, positionFrom_mono hfound ?_⟩
  unfold height
  omega

end Outline

namespace Control

variable {o : Outline} {control next : Control} {block : NodeId}

/-- Control is nowhere in a block, or in a block of the tree. -/
def Inside (o : Outline) (control : Control) : Prop := ∀ block ∈ control.block?, o.HasBlock block

/-- Climbing stays in a block that has the statement, and leaves one that has not. -/
theorem climb_stmt_eq_ok {index : Nat} (hclimb : climb o fuel (.stmt block index) = .ok next) :
    ∃ items, o.program.blockItems? block = some items ∧
      (index < items.length ∧ next = .stmt block index ∨
        items.length ≤ index ∧ ∃ fewer outer, fuel = fewer + 1 ∧ afterBlock o block = .ok outer ∧
          climb o fewer outer = .ok next) := by
  unfold climb at hclimb
  split at hclimb
  · cases hclimb
  next items hitems =>
    refine ⟨items, hitems, ?_⟩
    split at hclimb
    next hindex =>
      cases hclimb
      exact .inl ⟨hindex, rfl⟩
    next hindex =>
      cases fuel with
      | zero => cases hclimb
      | succ fewer =>
        obtain ⟨outer, hafter, hclimb⟩ := exists_of_bind_ok hclimb
        exact .inr ⟨Nat.le_of_not_lt hindex, fewer, outer, rfl, hafter, hclimb⟩

section

variable (ho : o.Tree)

include ho

/-- Behind a block control goes to the item that leads to it, or behind that item. Where control is
handed over instead, nothing leads to the block but what owns it. -/
theorem afterBlock_eq_ok (hafter : afterBlock o block = .ok next) :
    next = .invoke ∧ (∀ parent, o.Reaches parent → ¬o.program.Nests parent block) ∨
      ∃ outer index, o.Holds outer index block ∧ (next = .stmt outer (index + 1) ∨ next = .stmt outer index) := by
  unfold afterBlock at hafter
  have hchild {other} (hother : o.Reaches other) (hnests : o.program.Nests other block) :
      o.parent? block = some other := by
    obtain ⟨construct, hconstruct, hmem⟩ := child_iff.mp hnests.1
    exact ho.parent?_of_child hother hconstruct hmem
  split at hafter
  next hparent =>
    cases hafter
    exact .inl ⟨rfl, fun other hother hnests => nomatch hparent.symm.trans (hchild hother hnests)⟩
  next parent hparent =>
    have hplace := (ho.childAt_of_parent? hparent).2
    -- The parent is no block and owns none, so it stands in a block itself.
    have hplain {construct} (hconstruct : o.program.construct? parent = some construct)
        (howns : construct.ownsBlock = false) (hitems : construct.items? = none) {place}
        (hposition : o.position parent = .ok place) : o.Holds place.1 place.2 block :=
      (ho.holds_of_positionFrom hposition).below hconstruct ⟨_, hplace⟩ howns hitems
    split at hafter
    next hnone =>
      obtain ⟨construct, hconstruct, -⟩ := hplace
      cases hnone.symm.trans hconstruct
    next hblock =>
      cases hafter
      exact .inr ⟨parent, _, ho.holds_of_parent? hparent hblock rfl, .inl rfl⟩
    next hblock =>
      cases hafter
      exact .inr ⟨parent, _, ho.holds_of_parent? hparent hblock rfl, .inl rfl⟩
    next hlabel =>
      obtain ⟨place, hposition, rfl⟩ := exists_of_map_ok hafter
      exact .inr ⟨_, _, hplain hlabel rfl rfl hposition, .inl rfl⟩
    next hbranch =>
      obtain ⟨place, hposition, rfl⟩ := exists_of_map_ok hafter
      exact .inr ⟨_, _, hplain hbranch rfl rfl hposition, .inl rfl⟩
    next hloop =>
      obtain ⟨place, hposition, rfl⟩ := exists_of_map_ok hafter
      exact .inr ⟨_, _, hplain hloop rfl rfl hposition, .inr rfl⟩
    next construct _ _ _ _ _ hconstruct =>
      split at hafter <;> cases hafter
      next howns =>
        refine .inl ⟨rfl, fun other hother hnests => ?_⟩
        cases hparent.symm.trans (hchild hother hnests)
        rw [hnests.2 construct hconstruct] at howns
        cases howns

theorem reaches_afterBlock (hafter : afterBlock o block = .ok next) :
    ∀ outer ∈ next.block?, o.Reaches outer := by
  obtain ⟨rfl, -⟩ | ⟨outer, index, hholds, rfl | rfl⟩ := afterBlock_eq_ok ho hafter
  · simp [block?]
  · simpa [block?] using hholds.1
  · simpa [block?] using hholds.1

theorem inside_climb (hcontrol : ∀ block ∈ control.block?, o.Reaches block)
    (hclimb : climb o fuel control = .ok next) : next.Inside o := by
  induction fuel using Nat.strongRecOn generalizing control with
  | ind fuel ih =>
    cases control with
    | expr node =>
      unfold climb at hclimb
      cases hclimb
      simp [Inside, block?]
    | invoke =>
      unfold climb at hclimb
      cases hclimb
      simp [Inside, block?]
    | stmt block index =>
      obtain ⟨items, hitems, ⟨-, rfl⟩ | ⟨-, fewer, outer, rfl, hafter, hclimb⟩⟩ :=
        climb_stmt_eq_ok hclimb
      · intro other hother
        cases hother
        exact ⟨hcontrol block rfl, by simp [hitems]⟩
      · exact ih fewer (Nat.lt_succ_self fewer) (reaches_afterBlock ho hafter) hclimb

theorem inside_successor (hcontrol : control.Inside o)
    (hsuccessor : control.successor o = .ok next) : next.Inside o := by
  cases control with
  | stmt block index =>
    refine inside_climb ho (fun other hother => ?_) hsuccessor
    cases hother
    exact (hcontrol block rfl).1
  | expr node => cases hsuccessor
  | invoke =>
    cases hsuccessor
    simp [Inside, block?]

theorem inside_afterStmt {stmt : NodeId} (hafter : afterStmt o stmt = .ok next) :
    next.Inside o := by
  obtain ⟨⟨block, index⟩, hposition, hclimb⟩ := exists_of_bind_ok hafter
  refine inside_climb ho (fun other hother => ?_) hclimb
  cases hother
  exact (ho.hasBlock_position hposition).1

theorem inside_enter (hblock : o.Reaches block) (henter : enter o block = .ok next) :
    next.Inside o := by
  refine inside_climb ho (fun other hother => ?_) henter
  cases hother
  exact hblock

/-- A block that a construct owns is entered at its first statement, or is done at once. -/
theorem enter_owned {owner : NodeId} {construct : Construct} (howner : o.Reaches owner)
    (hconstruct : o.program.construct? owner = some construct) (howns : construct.ownsBlock = true)
    (hblock : block ∈ construct.children) (henter : enter o block = .ok next) :
    next = .stmt block 0 ∨ next = .invoke := by
  have hafter : afterBlock o block = .ok .invoke := by
    unfold afterBlock
    rw [ho.parent?_of_child howner hconstruct hblock]
    dsimp only
    rw [hconstruct]
    cases construct with
    | funcDef | parallel | parallelFor | critical => rfl
    | _ => cases howns
  obtain ⟨items, -, ⟨-, rfl⟩ | ⟨-, fewer, outer, -, hafter', hclimb⟩⟩ := climb_stmt_eq_ok henter
  · exact .inl rfl
  · rw [hafter] at hafter'
    cases hafter'
    unfold climb at hclimb
    cases hclimb
    exact .inr rfl

end

/-! ## Parallel loops -/

/-- The node is a parallel loop. -/
def isParallelLoop (o : Outline) (id : NodeId) : Bool :=
  match o.program.construct? id with
  | some (.parallelFor ..) => true
  | _ => false

/-- What follows the statement is in its own block, if it is in a block at all. -/
def staysBehind (o : Outline) (stmt : NodeId) : Bool :=
  match o.position stmt, afterStmt o stmt with
  | .ok (block, _), .ok (.stmt outer _) => outer = block
  | _, _ => true

/-- No parallel loop ends a nested block. -/
def LoopsStay (o : Outline) : Prop :=
  ∀ loop < o.program.nodes.size, isParallelLoop o loop = true → staysBehind o loop = true

instance (o : Outline) : Decidable (LoopsStay o) :=
  inferInstanceAs (Decidable (∀ loop < o.program.nodes.size, _ → _))

/-- Control is behind a parallel loop that ends a nested block, or behind a loop that follows
such a place. -/
inductive Drifts (o : Outline) : Control → Prop where
  | out {loop : NodeId} {control : Control} (hloop : isParallelLoop o loop = true)
      (hleaves : staysBehind o loop = false) (hafter : afterStmt o loop = .ok control) :
      Drifts o control
  | on {before control : Control} {loop : NodeId} (hbefore : Drifts o before)
      (hstmt : before.stmt? o.program = some loop) (hloop : isParallelLoop o loop = true)
      (hafter : afterStmt o loop = .ok control) : Drifts o control

theorem not_drifts (hstay : LoopsStay o) : ¬control.Drifts o := by
  intro hdrifts
  induction hdrifts with
  | @out loop _ hloop hleaves =>
    have hbound : loop < o.program.nodes.size := by
      by_contra hbound
      simp [isParallelLoop, construct?, Array.getElem?_eq_none (Nat.le_of_not_lt hbound)] at hloop
    rw [hstay loop hbound hloop] at hleaves
    cases hleaves
  | on _ _ _ _ ih => exact ih

end Control

end CoreC
