import CoreC.Proofs.Effect
import CoreC.Program.Control

/-! # The nodes of a program form a tree

The walk that builds an outline refuses to enter a node twice. So when it is done, every
child of a node it entered was entered itself, and its site names that node and no other,
however many nodes refer to each other on paper.
-/

namespace CoreC.Outline

open List

/-- The walk from the root has entered the node. -/
def Reaches (o : Outline) (id : NodeId) : Prop := id ∈ o.owners

/-! ## Entering one node -/

variable {construct : Construct} {id : NodeId} {function : Option NodeId} {o o' : Outline}

/-- Placing children changes sites only, and each of them to the node that is entered. -/
theorem placeChildren_eq_ok {children : List NodeId} {start : Nat}
    (hplace : o.placeChildren id children start = .ok o') :
    o' = { o with sites := o'.sites } ∧ (∀ other, other ∉ children → o'.sites[other]? = o.sites[other]?) ∧
      (children.Nodup → ∀ (i : Nat) (child : NodeId), children[i]? = some child →
        o'.sites[child]? = some ⟨id, start + i⟩) := by
  induction children generalizing o start with
  | nil =>
    cases hplace
    simp
  | cons first rest ih =>
    unfold placeChildren at hplace
    split at hplace
    next =>
      obtain ⟨heq, hother, hplaced⟩ := ih hplace
      refine ⟨heq, fun other hnot => ?_, fun hnodup i child hchild => ?_⟩
      · obtain ⟨hfirst, hrest⟩ := not_or.mp (mem_cons.not.mp hnot)
        rw [hother other hrest, Std.TreeMap.getElem?_insert, if_neg]
        simpa using Ne.symm hfirst
      · obtain ⟨hfirst, hrest⟩ := nodup_cons.mp hnodup
        cases i with
        | zero =>
          cases hchild
          rw [hother first hfirst, Std.TreeMap.getElem?_insert_self]
          rfl
        | succ i =>
          rw [hplaced hrest i child hchild]
          congr 2
          omega
    next => cases hplace

/-- What entering a node does to the tables. -/
structure Enters (o : Outline) (id : NodeId) (construct : Construct) (o' : Outline) : Prop where
  program : o'.program = o.program
  reaches : ∀ other, o'.Reaches other ↔ other = id ∨ o.Reaches other
  other : ∀ child, child ∉ construct.children → o'.sites[child]? = o.sites[child]?
  placed : construct.children.Nodup → ∀ (i : Nat) (child : NodeId),
    construct.children[i]? = some child → o'.sites[child]? = some ⟨id, i⟩
  functions : ∀ entry ∈ o'.functions, entry.2 = id ∨ entry ∈ o.functions

variable {inner : Option NodeId}

theorem define_eq_ok (hdefine : o.define id function construct = .ok (o', inner)) :
    o'.program = o.program ∧ o'.owners = o.owners ∧ o'.sites = o.sites ∧
      ∀ entry ∈ o'.functions, entry.2 = id ∨ entry ∈ o.functions := by
  unfold define at hdefine
  split at hdefine
  · split at hdefine <;> cases hdefine
    refine ⟨rfl, rfl, rfl, fun entry hentry => ?_⟩
    rcases mem_cons.mp hentry with rfl | hold
    · exact .inl rfl
    · exact .inr hold
  · cases hdefine
    exact ⟨rfl, rfl, rfl, fun _ => .inr⟩
  · split at hdefine
    · cases hdefine
    · split at hdefine <;> cases hdefine
      exact ⟨rfl, rfl, rfl, fun _ => .inr⟩
  · cases hdefine
    exact ⟨rfl, rfl, rfl, fun _ => .inr⟩

theorem declareItems_eq_ok (hdeclare : o.declareItems id construct = .ok o') :
    o' = { o with declarations := o'.declarations } := by
  unfold declareItems at hdeclare
  split at hdeclare
  · cases hdeclare
    rfl
  · obtain ⟨declared, -, hreturn⟩ := exists_of_bind_ok hdeclare
    cases hreturn
    rfl

/-- Entering a node defines it, places its children and declares its items, in this order. -/
theorem exists_of_enterNode (henter : o.enterNode id function construct = .ok (o', inner)) :
    ∃ defined placed,
      { o with owners := o.owners.insert id function }.define id function construct = .ok (defined, inner) ∧
      defined.placeChildren id construct.children 0 = .ok placed ∧ placed.declareItems id construct = .ok o' := by
  obtain ⟨⟨defined, inner'⟩, hdefine, henter⟩ := exists_of_bind_ok henter
  obtain ⟨-, -, henter⟩ := exists_of_bind_ok henter
  obtain ⟨placed, hplace, henter⟩ := exists_of_bind_ok henter
  obtain ⟨declared, hdeclare, hreturn⟩ := exists_of_bind_ok henter
  cases hreturn
  exact ⟨defined, placed, hdefine, hplace, hdeclare⟩

theorem enterNode_eq_ok
    (henter : o.enterNode id function construct = .ok (o', inner)) : o.Enters id construct o' := by
  obtain ⟨defined, placed, hdefine, hplace, hdeclare⟩ := exists_of_enterNode henter
  obtain ⟨hprogram, howners, hsites, hfunctions⟩ := define_eq_ok hdefine
  obtain ⟨hplaced, hother, hsite⟩ := placeChildren_eq_ok hplace
  have hdeclared := declareItems_eq_ok hdeclare
  have hsame : o'.sites = placed.sites := by rw [hdeclared]
  have howners' : o'.owners = o.owners.insert id function := by rw [hdeclared, hplaced, howners]
  constructor
  · rw [hdeclared, hplaced, hprogram]
  · intro other
    unfold Reaches
    rw [howners', Std.TreeMap.mem_insert, Std.compare_eq_iff_eq, eq_comm]
  · intro child hchild
    rw [hsame, hother child hchild, hsites]
  · intro hnodup i child hchild
    rw [hsame, hsite hnodup i child hchild, Nat.zero_add]
  · intro entry hentry
    rw [hdeclared, hplaced] at hentry
    exact hfunctions entry hentry

/-! ## The walk -/

/-- A walk that succeeds, step by step: each of them enters a node that is new. -/
inductive Walks (o' : Outline) : List (NodeId × Option NodeId) → Outline → Prop where
  | done : Walks o' [] o'
  | enter {id : NodeId} {function inner : Option NodeId} {rest : List (NodeId × Option NodeId)}
      {construct : Construct} {o middle : Outline} (hconstruct : o.program.construct? id = some construct)
      (hnew : ¬o.Reaches id) (henter : o.enterNode id function construct = .ok (middle, inner))
      (hrest : Walks o' (construct.children.map (·, inner) ++ rest) middle) :
      Walks o' ((id, function) :: rest) o

variable {stack : List (NodeId × Option NodeId)}

theorem walks_of_explore {fuel : Nat} (hwalk : explore fuel stack o = .ok o') : Walks o' stack o := by
  induction fuel generalizing stack o with
  | zero =>
    cases stack <;> cases hwalk
    exact .done
  | succ fuel ih =>
    cases stack with
    | nil =>
      cases hwalk
      exact .done
    | cons entry rest =>
      unfold explore at hwalk
      split at hwalk
      · cases hwalk
      next construct hconstruct =>
        split at hwalk
        · cases hwalk
        next hnew =>
          obtain ⟨⟨middle, inner⟩, henter, hrest⟩ := exists_of_bind_ok hwalk
          exact .enter hconstruct hnew henter (ih hrest)

/-- The nodes on a stack. -/
def onStack (stack : List (NodeId × Option NodeId)) : List NodeId := stack.map (·.1)

theorem onStack_children (children : List NodeId) (inner : Option NodeId)
    (rest : List (NodeId × Option NodeId)) :
    onStack (children.map (·, inner) ++ rest) = children ++ onStack rest := by
  simp [onStack, Function.comp_def]

/-- A walk that succeeds had no node twice on its stack and none that was entered before. -/
theorem Walks.fresh (hwalks : Walks o' stack o) :
    (onStack stack).Nodup ∧ ∀ id ∈ onStack stack, ¬o.Reaches id := by
  induction hwalks with
  | done => simp [onStack]
  | @enter entry _ _ rest _ o _ _ hnew henter _ ih =>
    obtain ⟨hnodup, hfresh⟩ := ih
    rw [onStack_children] at hnodup hfresh
    -- What is behind the node on the stack was not entered with it.
    have hbehind id (hid : id ∈ onStack rest) : ¬(id = entry ∨ o.Reaches id) := by
      rw [← (enterNode_eq_ok henter).reaches]
      exact hfresh id (mem_append_right _ hid)
    constructor
    · refine nodup_cons.mpr ⟨fun hmem => ?_, (nodup_append.mp hnodup).2.1⟩
      exact hbehind entry hmem (.inl rfl)
    · intro id hid
      rcases mem_cons.mp hid with rfl | hid
      · exact hnew
      · exact fun hreached => hbehind id hid (.inr hreached)

/-- The nodes entered so far form a tree, up to those that are still on the stack. -/
structure TreeUpTo (pending : List NodeId) (o : Outline) : Prop where
  child : ∀ {id child construct}, o.Reaches id →
    o.program.construct? id = some construct → child ∈ construct.children →
    o.Reaches child ∨ child ∈ pending
  site : ∀ {id child : NodeId} {construct : Construct} {i : Nat}, o.Reaches id →
    o.program.construct? id = some construct → construct.children[i]? = some child →
    o.sites[child]? = some ⟨id, i⟩
  parent : ∀ {child : NodeId} {site : Site}, o.sites[child]? = some site →
    o.Reaches site.parent ∧ ∃ construct, o.program.construct? site.parent = some construct ∧
      construct.children[site.index]? = some child
  function : ∀ entry ∈ o.functions, o.Reaches entry.2

/-- Entering a node off the stack puts its children on it. The walk ahead tells that they are
new, so no site is overwritten. -/
theorem TreeUpTo.enter {middle : Outline} {rest : List NodeId} (ho : TreeUpTo (id :: rest) o)
    (hconstruct : o.program.construct? id = some construct) (henters : o.Enters id construct middle)
    (hnodup : (construct.children ++ rest).Nodup)
    (hfresh : ∀ child ∈ construct.children, ¬middle.Reaches child) :
    TreeUpTo (construct.children ++ rest) middle := by
  have hid : middle.Reaches id := (henters.reaches id).mpr (.inl rfl)
  have hold (other : NodeId) (hother : o.Reaches other) : middle.Reaches other :=
    (henters.reaches other).mpr (.inr hother)
  obtain ⟨hchildren, -, hapart⟩ := nodup_append.mp hnodup
  constructor
  · intro other child construct' hother hconstruct' hchild
    rw [henters.program] at hconstruct'
    rcases (henters.reaches other).mp hother with rfl | hother
    · rw [hconstruct] at hconstruct'
      cases hconstruct'
      exact .inr (mem_append_left _ hchild)
    · rcases ho.child hother hconstruct' hchild with hreached | hpending
      · exact .inl (hold child hreached)
      · rcases mem_cons.mp hpending with rfl | hrest
        · exact .inl hid
        · exact .inr (mem_append_right _ hrest)
  · intro other child construct' i hother hconstruct' hchild
    rw [henters.program] at hconstruct'
    rcases (henters.reaches other).mp hother with rfl | hother
    · rw [hconstruct] at hconstruct'
      cases hconstruct'
      exact henters.placed hchildren i child hchild
    · have hmem := mem_of_getElem? hchild
      -- A child of an older node was entered or waits on the stack, so it is not a new child.
      have hnot : child ∉ construct.children := by
        intro hnew
        rcases ho.child hother hconstruct' hmem with hreached | hpending
        · exact hfresh child hnew (hold child hreached)
        · rcases mem_cons.mp hpending with rfl | hrest
          · exact hfresh child hnew hid
          · exact hapart child hnew child hrest rfl
      rw [henters.other child hnot]
      exact ho.site hother hconstruct' hchild
  · intro child site hsite
    rw [henters.program]
    by_cases hnew : child ∈ construct.children
    · obtain ⟨i, hi⟩ := getElem?_of_mem hnew
      rw [henters.placed hchildren i child hi] at hsite
      cases hsite
      exact ⟨hid, construct, hconstruct, hi⟩
    · rw [henters.other child hnew] at hsite
      obtain ⟨hparent, hplace⟩ := ho.parent hsite
      exact ⟨hold _ hparent, hplace⟩
  · intro entry hentry
    rcases henters.functions entry hentry with heq | hentry
    · rw [heq]
      exact hid
    · exact hold _ (ho.function entry hentry)

theorem TreeUpTo.walk (hwalks : Walks o' stack o) (ho : TreeUpTo (onStack stack) o) :
    TreeUpTo [] o' ∧ o'.program = o.program ∧
      ∀ id, (id ∈ onStack stack ∨ o.Reaches id) → o'.Reaches id := by
  induction hwalks with
  | done => exact ⟨ho, rfl, fun id hid => hid.resolve_left (by simp [onStack])⟩
  | @enter entry _ inner rest construct o middle hconstruct hnew henter hrest ih =>
    have henters := enterNode_eq_ok henter
    obtain ⟨hnodup, hfresh⟩ := hrest.fresh
    rw [onStack_children] at hnodup hfresh
    have hmiddle : TreeUpTo (construct.children ++ onStack rest) middle :=
      ho.enter hconstruct henters hnodup fun child hchild => hfresh child (mem_append_left _ hchild)
    rw [← onStack_children _ inner] at hmiddle
    obtain ⟨htree, hprogram, hreaches⟩ := ih hmiddle
    refine ⟨htree, hprogram.trans henters.program, fun id hid => hreaches id ?_⟩
    rw [onStack_children, henters.reaches]
    rcases hid with hid | hreached
    · rcases mem_cons.mp hid with rfl | hid
      · exact .inr (.inl rfl)
      · exact .inl (mem_append_right _ hid)
    · exact .inr (.inr hreached)

/-- The nodes of the outline form a tree. -/
abbrev Tree (o : Outline) : Prop := TreeUpTo [] o

/-- An outline is made of a file by a walk from its root, and a check of the walk's result. -/
theorem checked_ofProgram {p : Program} (ho : ofProgram p = .ok o) :
    (∃ items, p.construct? p.root = some (.file items)) ∧
      o.checkReturns p.nodes.toList.zipIdx [] = .ok () ∧
      explore (p.nodes.size + 1) [(p.root, none)] (blank p) = .ok o := by
  unfold ofProgram at ho
  split at ho
  next items hfile =>
    obtain ⟨walked, hwalk, hchecked⟩ := exists_of_bind_ok ho
    obtain ⟨⟨⟩, hcheck, hreturn⟩ := exists_of_bind_ok hchecked
    cases hreturn
    exact ⟨⟨items, hfile⟩, hcheck, hwalk⟩
  next => cases ho

theorem tree_ofProgram {p : Program} (ho : ofProgram p = .ok o) :
    o.Tree ∧ o.program = p ∧ o.Reaches p.root := by
  have hblank : TreeUpTo (onStack [(p.root, none)]) (blank p) := by
    constructor <;> simp [blank, Reaches]
  obtain ⟨htree, hprogram, hreaches⟩ := TreeUpTo.walk (walks_of_explore (checked_ofProgram ho).2.2) hblank
  exact ⟨htree, hprogram, hreaches p.root (.inl (by simp [onStack]))⟩

end CoreC.Outline
