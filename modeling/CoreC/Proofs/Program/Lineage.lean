import CoreC.Program.Builder
import CoreC.Proofs.Program.Control
import Mathlib.Data.Fintype.Card

/-! # What the tables of an outline say

The nodes of an arena may refer to each other in any way, and to nodes that do not exist. If an
outline can be made, the nodes that the root leads to form a tree, and the tables tell the truth
about it: sites are places among children, owners are the innermost functions around, and each
name of a function, or of a label within a function, stands for one node.
-/

namespace CoreC

open Program Construct List Option Relation

namespace Construct

/-- The function that the construct defines. -/
def functionName? : Construct → Option String
  | .funcDef name .. => some name
  | _ => none

/-- The label that the construct sets. -/
def labelName? : Construct → Option String
  | .label name _ => some name
  | _ => none

/-- The function around the children of a node, given that around the node. -/
def innerFunction (id : NodeId) (owner : Option NodeId) (construct : Construct) : Option NodeId :=
  if construct.functionName?.isSome then some id else owner

end Construct

namespace Program

variable (p : Program)

/-- The root leads to the node. -/
def Reached (id : NodeId) : Prop := ReflTransGen p.Child p.root id

/-- The node defines a function of the name. -/
def Defines (name : String) (id : NodeId) : Prop :=
  (p.construct? id).bind functionName? = some name

/-- The node sets a label of the name. -/
def Marks (name : String) (id : NodeId) : Prop :=
  (p.construct? id).bind labelName? = some name

/-- The root leads to a function that has the node strictly inside. -/
def Encloses (function id : NodeId) : Prop :=
  p.Reached function ∧ (∃ name, p.Defines name function) ∧ TransGen p.Child function id

/-- Of all functions around the node this one is the innermost. -/
def Innermost (function id : NodeId) : Prop :=
  p.Encloses function id ∧ ∀ other, p.Encloses other id → ReflTransGen p.Child other function

variable {p} {name : String} {id : NodeId} {construct : Construct} (hconstruct : p.construct? id = some construct)

include hconstruct

theorem lt_size_of_construct? : id < p.nodes.size := by
  obtain ⟨node, hnode, -⟩ := map_eq_some_iff.mp hconstruct
  exact (Array.getElem?_eq_some_iff.mp hnode).1

theorem defines_iff : p.Defines name id ↔ construct.functionName? = some name := by
  rw [Defines, hconstruct, bind_some]

theorem marks_iff : p.Marks name id ↔ construct.labelName? = some name := by
  rw [Marks, hconstruct, bind_some]

end Program

/-- Ranks count down to zero. If nothing has two of them, there are no more than there are things. -/
theorem lt_of_ranked {R : Nat → Nat → Prop} {bound : Nat}
    (hunique : ∀ {rank other id}, R rank id → R other id → rank = other)
    (hdown : ∀ {rank id}, R (rank + 1) id → ∃ next, R rank next)
    (hbound : ∀ {rank id}, R rank id → id < bound) {rank id : Nat} (hrank : R rank id) : rank < bound := by
  have hway (lower : Fin (rank + 1)) : ∃ other : Fin bound, R lower other.val := by
    obtain ⟨lower, hlower⟩ := lower
    induction rank generalizing id with
    | zero => exact ⟨⟨id, hbound hrank⟩, Nat.lt_one_iff.mp hlower ▸ hrank⟩
    | succ rank ih =>
      obtain ⟨next, hnext⟩ := hdown hrank
      rcases Nat.lt_succ_iff_lt_or_eq.mp hlower with hlt | rfl
      · exact ih hnext hlt
      · exact ⟨⟨id, hbound hrank⟩, hrank⟩
  choose other hother using hway
  have hinjective : Function.Injective other := by
    intro i j hsame
    have hi := hother i
    rw [hsame] at hi
    exact Fin.ext (hunique hi (hother j))
  simpa [Nat.succ_le_iff] using Fintype.card_le_of_injective other hinjective

namespace Outline

open Relation

/-! ## Names and owners during the walk -/

/-- What entering a node does to names. -/
structure Names (o : Outline) (id : NodeId) (owner : Option NodeId) (construct : Construct)
    (o' : Outline) (inner : Option NodeId) : Prop where
  inner : inner = construct.innerFunction id owner
  function : ∀ name other, o'.function? name = some other ↔
    (other = id ∧ construct.functionName? = some name) ∨ o.function? name = some other
  label : ∀ function name other, o'.label? function name = some other ↔
    (other = id ∧ owner = some function ∧ construct.labelName? = some name) ∨
      o.label? function name = some other

variable {construct : Construct} {id : NodeId} {owner inner : Option NodeId} {o o' : Outline}

theorem reaches_of_owner (howner : o.owners[id]? = some owner) : o.Reaches id :=
  Std.TreeMap.mem_iff_isSome_getElem?.mpr (howner ▸ rfl)

/-- An entry under a new key is found beside those that there were. -/
theorem lookup_cons_eq_some {κ : Type} [BEq κ] [LawfulBEq κ] {entries : List (κ × NodeId)}
    {key other : κ} {found : NodeId} (hnew : entries.lookup key = none) :
    ((key, id) :: entries).lookup other = some found ↔
      (found = id ∧ key = other) ∨ entries.lookup other = some found := by
  rw [lookup_cons]
  by_cases hkey : other = key
  · subst hkey
    simp [hnew, eq_comm]
  · have hbeq : (other == key) = false := by simpa using hkey
    simp [hbeq, Ne.symm hkey]

theorem names_define (hdefine : o.define id owner construct = .ok (o', inner)) :
    o.Names id owner construct o' inner := by
  unfold define at hdefine
  split at hdefine
  next name returns params body =>
    split at hdefine <;> cases hdefine
    next hnew =>
      have hfresh : o.functions.lookup name = none := not_isSome_iff_eq_none.mp hnew
      refine ⟨rfl, fun other found => ?_, by simp [label?, labelName?]⟩
      refine (lookup_cons_eq_some hfresh).trans ?_
      simp [functionName?, function?]
  next name fields union =>
    cases hdefine
    exact ⟨rfl, by simp [function?, functionName?], by simp [label?, labelName?]⟩
  next name stmt =>
    split at hdefine
    · cases hdefine
    next owner =>
      split at hdefine <;> cases hdefine
      next hnew =>
        have hfresh : o.labels.lookup (owner, name) = none := not_isSome_iff_eq_none.mp hnew
        refine ⟨rfl, by simp [function?, functionName?], fun function other found => ?_⟩
        refine (lookup_cons_eq_some hfresh).trans ?_
        simp [labelName?, label?]
  next hfunction hstruct hlabel =>
    cases hdefine
    have hname : construct.functionName? = none := by
      cases construct <;> first | rfl | exact absurd rfl (hfunction _ _ _ _)
    have hmark : construct.labelName? = none := by
      cases construct <;> first | rfl | exact absurd rfl (hlabel _ _)
    exact ⟨by simp [innerFunction, hname], by simp [hname], by simp [hmark]⟩

theorem names_enterNode (henter : o.enterNode id owner construct = .ok (o', inner)) :
    o.Names id owner construct o' inner ∧ o'.owners = o.owners.insert id owner := by
  obtain ⟨defined, placed, hdefine, hplace, hdeclare⟩ := exists_of_enterNode henter
  obtain ⟨hinner, hfunction, hlabel⟩ := names_define hdefine
  rw [declareItems_eq_ok hdeclare, (placeChildren_eq_ok hplace).1]
  exact ⟨⟨hinner, hfunction, hlabel⟩, by rw [(define_eq_ok hdefine).2.1]⟩

/-- Owners and names are right for all nodes entered so far, and those on the stack come with
their owners. -/
structure EnrolledUpTo (stack : List (NodeId × Option NodeId)) (o : Outline) : Prop where
  reached : ∀ id, (id ∈ onStack stack ∨ o.Reaches id) → o.program.Reached id
  known : ∀ id, o.Reaches id → (o.program.construct? id).isSome
  root : (o.program.root, none) ∈ stack ∨ o.owners[o.program.root]? = some none
  orphan : o.sites[o.program.root]? = none
  child : ∀ {id child owner construct},
    o.owners[id]? = some owner → o.program.construct? id = some construct →
    child ∈ construct.children → (child, construct.innerFunction id owner) ∈ stack ∨
      o.owners[child]? = some (construct.innerFunction id owner)
  function : ∀ name id, o.function? name = some id ↔ o.Reaches id ∧ o.program.Defines name id
  label : ∀ function name id, o.label? function name = some id ↔
    o.owners[id]? = some (some function) ∧ o.program.Marks name id

theorem enrolledUpTo_blank (p : Program) : EnrolledUpTo [(p.root, none)] (blank p) where
  reached id hid := by
    have hroot : id = p.root := by simpa [onStack, blank, Reaches] using hid
    exact hroot ▸ .refl
  known := by simp [blank, Reaches]
  root := .inl mem_cons_self
  orphan := by simp [blank]
  child hid := by simp [blank] at hid
  function := by simp [blank, function?, Reaches]
  label := by simp [blank, label?]

/-- Entering a node off the stack puts its children on it, with the function around them. -/
theorem EnrolledUpTo.enter {o middle : Outline}
    {rest : List (NodeId × Option NodeId)} (ho : EnrolledUpTo ((id, owner) :: rest) o)
    (hnew : ¬o.Reaches id) (hconstruct : o.program.construct? id = some construct)
    (henters : o.Enters id construct middle) (hnames : o.Names id owner construct middle inner)
    (howners : middle.owners = o.owners.insert id owner)
    (hnodup : (construct.children ++ onStack rest).Nodup)
    (hfresh : ∀ child ∈ construct.children, ¬middle.Reaches child) :
    EnrolledUpTo (construct.children.map (·, inner) ++ rest) middle := by
  have howner other : middle.owners[other]? =
      if other = id then some owner else o.owners[other]? := by
    rw [howners, Std.TreeMap.getElem?_insert]
    simp only [Std.compare_eq_iff_eq, eq_comm (a := id)]
  have hreaches other : o.Reaches other → other ≠ id := by
    rintro hother rfl
    exact hnew hother
  have hold {other : NodeId} {around : Option NodeId} (hother : o.owners[other]? = some around) :
      middle.owners[other]? = some around := by
    rw [howner, if_neg (hreaches _ (reaches_of_owner hother)), hother]
  -- Whoever was on the stack still is, or is entered.
  have hkept {other : NodeId} {around : Option NodeId}
      (hother : (other, around) ∈ (id, owner) :: rest ∨ o.owners[other]? = some around) :
      (other, around) ∈ construct.children.map (·, inner) ++ rest ∨ middle.owners[other]? = some around := by
    rcases hother with hpending | hentered
    · rcases mem_cons.mp hpending with heq | hrest
      · cases heq
        exact .inr ((howner _).trans (if_pos rfl))
      · exact .inl (mem_append_right _ hrest)
    · exact .inr (hold hentered)
  constructor
  · intro other hother
    rw [henters.program]
    have hid : o.program.Reached id := ho.reached id (.inl mem_cons_self)
    rw [onStack_children, henters.reaches, mem_append] at hother
    rcases hother with (hchild | hrest) | rfl | hold
    · exact hid.tail (child_iff.mpr ⟨construct, hconstruct, hchild⟩)
    · exact ho.reached other (.inl (mem_cons_of_mem _ hrest))
    · exact hid
    · exact ho.reached other (.inr hold)
  · intro other hother
    rw [henters.program]
    rcases (henters.reaches other).mp hother with rfl | hold
    · rw [hconstruct, isSome_some]
    · exact ho.known other hold
  · rw [henters.program]
    exact hkept ho.root
  · rw [henters.program, henters.other _ fun hchild => ?_]
    · exact ho.orphan
    -- The root was entered, or is about to be, so it is not a new child.
    rcases ho.root with hroot | hroot
    · rcases mem_cons.mp hroot with heq | hrest
      · cases heq
        exact hfresh _ hchild ((henters.reaches _).mpr (.inl rfl))
      · have hbehind : o.program.root ∈ onStack rest := mem_map_of_mem hrest
        exact (nodup_append.mp hnodup).2.2 _ hchild _ hbehind rfl
    · exact hfresh _ hchild ((henters.reaches _).mpr (.inr (reaches_of_owner hroot)))
  · intro other child owner' construct' hother hconstruct' hchild
    rw [henters.program] at hconstruct'
    rw [howner] at hother
    split at hother
    next heq =>
      subst heq
      cases hother
      cases hconstruct.symm.trans hconstruct'
      refine .inl (mem_append_left _ ?_)
      rw [← hnames.inner]
      exact mem_map_of_mem hchild
    next => exact hkept (ho.child hother hconstruct' hchild)
  · intro name other
    rw [hnames.function, ho.function, henters.reaches, henters.program]
    constructor
    · rintro (⟨rfl, hname⟩ | ⟨hold, hdefines⟩)
      · exact ⟨.inl rfl, (defines_iff hconstruct).mpr hname⟩
      · exact ⟨.inr hold, hdefines⟩
    · rintro ⟨rfl | hold, hdefines⟩
      · exact .inl ⟨rfl, (defines_iff hconstruct).mp hdefines⟩
      · exact .inr ⟨hold, hdefines⟩
  · intro function name other
    rw [hnames.label, ho.label, henters.program]
    constructor
    · rintro (⟨rfl, rfl, hname⟩ | ⟨hother, hmarks⟩)
      · exact ⟨(howner other).trans (if_pos rfl), (marks_iff hconstruct).mpr hname⟩
      · exact ⟨hold hother, hmarks⟩
    · rintro ⟨hown, hmarks⟩
      rw [howner] at hown
      split at hown
      next heq =>
        subst heq
        cases hown
        exact .inl ⟨rfl, rfl, (marks_iff hconstruct).mp hmarks⟩
      next => exact .inr ⟨hown, hmarks⟩

/-- By induction on the steps of the walk. -/
theorem EnrolledUpTo.walk {stack : List (NodeId × Option NodeId)} (hwalks : Walks o' stack o)
    (ho : EnrolledUpTo stack o) : EnrolledUpTo [] o' := by
  induction hwalks with
  | done => exact ho
  | enter hconstruct hnew henter hrest ih =>
    obtain ⟨hnodup, hfresh⟩ := hrest.fresh
    rw [onStack_children] at hnodup hfresh
    obtain ⟨hnames, howners⟩ := names_enterNode henter
    refine ih (ho.enter hnew hconstruct (enterNode_eq_ok henter) hnames howners hnodup ?_)
    exact fun child hchild => hfresh child (mem_append_left _ hchild)

/-- The nodes of the outline form a tree, with the right owners and names. -/
structure Grown (o : Outline) : Prop where
  tree : o.Tree
  enrolled : EnrolledUpTo [] o

theorem grown_ofProgram {p : Program} (ho : ofProgram p = .ok o) : o.Grown where
  tree := (tree_ofProgram ho).1
  enrolled := .walk (walks_of_explore (checked_ofProgram ho).2.2) (enrolledUpTo_blank p)

/-! ## Going up and down the tree -/

/-- The node some steps above another one. -/
def ancestor? (o : Outline) : Nat → NodeId → Option NodeId
  | 0, id => some id
  | steps + 1, id => (o.parent? id).bind (o.ancestor? steps)

theorem ancestor?_add (o : Outline) (first second : Nat) (id : NodeId) :
    o.ancestor? (first + second) id = (o.ancestor? first id).bind (o.ancestor? second) := by
  induction first generalizing id with
  | zero => simp [ancestor?]
  | succ first ih =>
    rw [Nat.add_right_comm, ancestor?, ancestor?]
    cases o.parent? id with
    | none => rfl
    | some parent => exact ih parent

namespace Grown

variable {o : Outline} (ho : o.Grown)

include ho

theorem owner_root : o.owners[o.program.root]? = some none := ho.enrolled.root.resolve_left not_mem_nil

variable {id child : NodeId}

/-- The walk enters the nodes that the root leads to, and no others. -/
theorem reaches_iff : o.Reaches id ↔ o.program.Reached id := by
  refine ⟨fun hid => ho.enrolled.reached id (.inr hid), fun hid => ?_⟩
  induction hid with
  | refl => exact reaches_of_owner ho.owner_root
  | tail _ hchild ih =>
    obtain ⟨construct, hconstruct, hmem⟩ := child_iff.mp hchild
    exact ho.tree.reaches_child ih hconstruct hmem

theorem site_of_childAt {index : Nat} (hid : o.program.Reached id)
    (hchild : o.program.ChildAt id index child) : o.sites[child]? = some ⟨id, index⟩ := by
  obtain ⟨construct, hconstruct, hplace⟩ := hchild
  exact ho.tree.site (ho.reaches_iff.mpr hid) hconstruct hplace

theorem parent?_of_child (hid : o.program.Reached id) (hchild : o.program.Child id child) :
    o.parent? child = some id := by
  obtain ⟨index, hplace⟩ := hchild
  rw [parent?, ho.site_of_childAt hid hplace, map_some]

theorem parent?_root : o.parent? o.program.root = none := by rw [parent?, ho.enrolled.orphan, map_none]

variable {other : NodeId}

section

variable (hid : o.program.Reached id)

include hid

/-- A child has one parent. -/
theorem parent_unique (hother : o.program.Reached other) (hchild : o.program.Child id child)
    (hchild' : o.program.Child other child) : id = other :=
  some.inj ((ho.parent?_of_child hid hchild).symm.trans (ho.parent?_of_child hother hchild'))

theorem not_child_root : ¬o.program.Child id o.program.root := by
  intro hchild
  have hparent := ho.parent?_of_child hid hchild
  rw [ho.parent?_root] at hparent
  cases hparent

/-- What lies above a child lies above its parent, or is the parent. -/
theorem above_child (hchild : o.program.Child id child) (hother : o.program.Reached other) :
    TransGen o.program.Child other child ↔ ReflTransGen o.program.Child other id := by
  constructor
  · intro habove
    obtain ⟨last, hpath, hlast⟩ := TransGen.tail'_iff.mp habove
    cases ho.parent_unique hid (hother.trans hpath) hchild hlast
    exact hpath
  · exact fun hpath => .tail' hpath hchild

/-- By induction on the way from the root: a circle through a node goes through its parent too,
and none goes through the root. -/
theorem not_above_self : ¬TransGen o.program.Child id id := by
  induction hid with
  | refl =>
    intro hcircle
    obtain ⟨last, hpath, hlast⟩ := TransGen.tail'_iff.mp hcircle
    exact ho.not_child_root hpath hlast
  | tail hparent hchild ih =>
    intro hcircle
    have hpath := (ho.above_child hparent hchild (hparent.tail hchild)).mp hcircle
    exact ih (.head' hchild hpath)

theorem eq_of_above
    (hdown : ReflTransGen o.program.Child id other) (hup : ReflTransGen o.program.Child other id) :
    id = other := by
  rcases reflTransGen_iff_eq_or_transGen.mp hdown with heq | hbelow
  · exact heq.symm
  · exact absurd (hbelow.trans_left hup) (ho.not_above_self hid)

/-! ## Climbing -/

theorem ancestor?_eq_root : ∃ steps, o.ancestor? steps id = some o.program.root := by
  induction hid with
  | refl => exact ⟨0, rfl⟩
  | tail hparent hchild ih =>
    obtain ⟨steps, hsteps⟩ := ih
    refine ⟨steps + 1, ?_⟩
    rw [ancestor?, ho.parent?_of_child hparent hchild, bind_some, hsteps]

end

/-- From no node the root is met after two different numbers of steps. -/
theorem steps_unique {steps more : Nat} (hsteps : o.ancestor? steps id = some o.program.root)
    (hmore : o.ancestor? (steps + more) id = some o.program.root) : more = 0 := by
  rw [ancestor?_add, hsteps, bind_some] at hmore
  cases more with
  | zero => rfl
  | succ more =>
    rw [ancestor?, ho.parent?_root] at hmore
    cases hmore

theorem lt_size (hid : o.program.Reached id) : id < o.program.nodes.size := by
  obtain ⟨construct, hconstruct⟩ := isSome_iff_exists.mp (ho.enrolled.known id (ho.reaches_iff.mpr hid))
  exact lt_size_of_construct? hconstruct

/-- There are no more nodes on the way to the root than in the program. -/
theorem ancestor?_eq_root_within (hid : o.program.Reached id) :
    ∃ steps < o.program.nodes.size, o.ancestor? steps id = some o.program.root := by
  obtain ⟨steps, hsteps⟩ := ho.ancestor?_eq_root hid
  refine ⟨steps, ?_, hsteps⟩
  refine lt_of_ranked (R := fun steps id => o.program.Reached id ∧ o.ancestor? steps id = some o.program.root)
    (fun {steps more id} hsteps hmore => ?_) (fun {steps id} hsteps => ?_) (fun h => ho.lt_size h.1) ⟨hid, hsteps⟩
  · rcases Nat.le_total steps more with hle | hle
    · have hzero := ho.steps_unique hsteps.2 (Nat.add_sub_cancel' hle ▸ hmore.2)
      omega
    · have hzero := ho.steps_unique hmore.2 (Nat.add_sub_cancel' hle ▸ hsteps.2)
      omega
  · obtain ⟨parent, hparent, hrest⟩ := bind_eq_some_iff.mp hsteps.2
    exact ⟨parent, ho.reaches_iff.mp (ho.tree.childAt_of_parent? hparent).1, hrest⟩

/-! ## Functions around a node -/

theorem not_encloses_root (function : NodeId) : ¬o.program.Encloses function o.program.root := by
  rintro ⟨hfunction, -, habove⟩
  obtain ⟨last, hpath, hlast⟩ := TransGen.tail'_iff.mp habove
  exact ho.not_child_root (hfunction.trans hpath) hlast

variable (hid : o.program.Reached id)

include hid

/-- The functions around a child are those around its parent, and the parent if it is one. -/
theorem encloses_child {function : NodeId}
    (hchild : o.program.Child id child) : o.program.Encloses function child ↔
      o.program.Encloses function id ∨ function = id ∧ ∃ name, o.program.Defines name id := by
  constructor
  · rintro ⟨hfunction, hdefines, habove⟩
    rcases reflTransGen_iff_eq_or_transGen.mp ((ho.above_child hid hchild hfunction).mp habove) with rfl | habove
    · exact .inr ⟨rfl, hdefines⟩
    · exact .inl ⟨hfunction, hdefines, habove⟩
  · rintro (⟨hfunction, hdefines, habove⟩ | ⟨rfl, hdefines⟩)
    · exact ⟨hfunction, hdefines, habove.tail hchild⟩
    · exact ⟨hid, hdefines, .single hchild⟩

theorem innermost_child_of_defines {function : NodeId} {name : String}
    (hchild : o.program.Child id child) (hdefines : o.program.Defines name id) :
    o.program.Innermost function child ↔ id = function := by
  have haround : o.program.Encloses id child := (ho.encloses_child hid hchild).mpr (.inr ⟨rfl, name, hdefines⟩)
  have hbelow {other} (hother : o.program.Encloses other child) :
      ReflTransGen o.program.Child other id := (ho.above_child hid hchild hother.1).mp hother.2.2
  constructor
  · rintro ⟨hfunction, hothers⟩
    exact ho.eq_of_above hid (hothers id haround) (hbelow hfunction)
  · rintro rfl
    exact ⟨haround, fun other hother => hbelow hother⟩

/-- By induction on the way from the root. -/
theorem owner_spec : ∃ owner, o.owners[id]? = some owner ∧
    (∀ function, owner = some function ↔ o.program.Innermost function id) ∧
    (owner = none ↔ ∀ function, ¬o.program.Encloses function id) := by
  induction hid with
  | refl =>
    refine ⟨none, ho.owner_root, fun function => ?_, by simpa using ho.not_encloses_root⟩
    refine iff_of_false (by simp) fun hinnermost => ?_
    exact ho.not_encloses_root function hinnermost.1
  | @tail id child hid hchild ih =>
    obtain ⟨owner, howner, hsome, hnone⟩ := ih
    obtain ⟨construct, hconstruct, hmem⟩ := child_iff.mp hchild
    refine ⟨construct.innerFunction id owner, (ho.enrolled.child howner hconstruct hmem).resolve_left not_mem_nil, ?_⟩
    unfold innerFunction
    cases hname : construct.functionName? with
    | some name =>
      have hdefines := (defines_iff hconstruct).mpr hname
      simp only [isSome_some, ↓reduceIte, some.injEq, reduceCtorEq, false_iff]
      refine ⟨fun function => (ho.innermost_child_of_defines hid hchild hdefines).symm, fun hno => ?_⟩
      exact hno id ((ho.encloses_child hid hchild).mpr (.inr ⟨rfl, name, hdefines⟩))
    | none =>
      have hplain : ¬∃ name, o.program.Defines name id := by
        rintro ⟨name, hdefines⟩
        rw [defines_iff hconstruct, hname] at hdefines
        cases hdefines
      have hsame function : o.program.Encloses function child ↔ o.program.Encloses function id := by
        rw [ho.encloses_child hid hchild]
        simp [hplain]
      simp only [isSome_none, Bool.false_eq_true, ↓reduceIte, Innermost, hsame]
      exact ⟨hsome, hnone⟩

end Grown

/-! ## Returns -/

/-- The node returns from the function. -/
def ReturnsFrom (o : Outline) (function : NodeId) (entry : Node × NodeId) : Prop :=
  (∃ value, entry.1.construct = .ret value) ∧ o.functionOf? entry.2 = some function

/-- No function is returned from twice, and none that was returned from before. -/
theorem checkReturns_eq_ok {nodes : List (Node × NodeId)} {returned : List NodeId}
    (hcheck : o.checkReturns nodes returned = .ok ()) :
    nodes.Pairwise (fun entry other => ∀ function, o.ReturnsFrom function entry → ¬o.ReturnsFrom function other) ∧
      ∀ function ∈ returned, ∀ entry ∈ nodes, ¬o.ReturnsFrom function entry := by
  induction nodes generalizing returned with
  | nil => simp
  | cons entry rest ih =>
    unfold checkReturns at hcheck
    split at hcheck
    next value function hret hfunction =>
      split at hcheck
      · cases hcheck
      next hnew =>
        obtain ⟨hpairs, hbefore⟩ := ih hcheck
        have honly {other} (hother : o.ReturnsFrom other entry) : other = function :=
          some.inj (hother.2.symm.trans hfunction)
        refine ⟨pairwise_cons.mpr ⟨fun later hlater other hother => ?_, hpairs⟩, fun other hother => ?_⟩
        · exact honly hother ▸ hbefore function mem_cons_self later hlater
        · refine forall_mem_cons.mpr ⟨fun hreturns => hnew (honly hreturns ▸ hother), ?_⟩
          exact hbefore other (mem_cons_of_mem function hother)
    next hother =>
      obtain ⟨hpairs, hbefore⟩ := ih hcheck
      have hnever function : ¬o.ReturnsFrom function entry := by
        rintro ⟨⟨value, hret⟩, hfunction⟩
        exact hother value function hret hfunction
      refine ⟨pairwise_cons.mpr ⟨fun _ _ function hreturns => ?_, hpairs⟩, fun function hfunction => ?_⟩
      · exact absurd hreturns (hnever function)
      · exact forall_mem_cons.mpr ⟨hnever function, hbefore function hfunction⟩

theorem not_lt_of_returns {p : Program} (ho : ofProgram p = .ok o)
    {other function : NodeId} {value value' : Option NodeId}
    (hid : p.construct? id = some (.ret value)) (hother : p.construct? other = some (.ret value'))
    (hfunction : o.functionOf? id = some function)
    (hfunction' : o.functionOf? other = some function) : ¬id < other := by
  intro hlt
  have hpairs := (checkReturns_eq_ok (checked_ofProgram ho).2.1).1
  obtain ⟨node, hnode, hret⟩ := map_eq_some_iff.mp hid
  obtain ⟨node', hnode', hret'⟩ := map_eq_some_iff.mp hother
  obtain ⟨hbound, rfl⟩ := Array.getElem?_eq_some_iff.mp hnode
  obtain ⟨hbound', rfl⟩ := Array.getElem?_eq_some_iff.mp hnode'
  have hapart := pairwise_iff_getElem.mp hpairs id other (by simpa) (by simpa) hlt function
  simp only [getElem_zipIdx, Array.getElem_toList, Nat.zero_add] at hapart
  exact hapart ⟨⟨value, hret⟩, hfunction⟩ ⟨⟨value', hret'⟩, hfunction'⟩

/-! ## The tables -/

/-- The nodes that the root leads to form a tree, and the tables say where they stand, what is
around them, and which of them the names mean. -/
structure Describes (o : Outline) (p : Program) : Prop where
  file : ∃ items, p.construct? p.root = some (.file items)
  parent?_root : o.parent? p.root = none
  lt_size : ∀ {id}, p.Reached id → id < p.nodes.size
  /-- The root is no child, and every other node is one at exactly one place. -/
  not_childAt_root : ∀ {id} index, p.Reached id → ¬p.ChildAt id index p.root
  childAt_unique : ∀ {id}, p.Reached id → id ≠ p.root →
    ∃! site : Site, p.Reached site.parent ∧ p.ChildAt site.parent site.index id
  /-- The tables name that place. -/
  childAt_index : ∀ {id}, p.Reached id → id ≠ p.root →
    ∃ parent, o.parent? id = some parent ∧ p.Reached parent ∧ p.ChildAt parent (o.index id) id
  ancestor? : ∀ {id}, p.Reached id → ∃ steps < p.nodes.size, o.ancestor? steps id = some p.root
  functionOf?_eq_some : ∀ {id}, p.Reached id →
    ∀ function, o.functionOf? id = some function ↔ p.Innermost function id
  functionOf?_eq_none : ∀ {id}, p.Reached id →
    (o.functionOf? id = none ↔ ∀ function, ¬p.Encloses function id)
  label? : ∀ function name id, o.label? function name = some id ↔
    p.Reached id ∧ p.Marks name id ∧ o.functionOf? id = some function
  function? : ∀ name id, o.function? name = some id ↔ p.Reached id ∧ p.Defines name id
  /-- No two nodes return from one function, be they in the tree or not. -/
  return_unique : ∀ {id other function value value'},
    p.construct? id = some (.ret value) → p.construct? other = some (.ret value') →
    o.functionOf? id = some function → o.functionOf? other = some function → id = other

/-- If an outline can be made of a program, it describes the program. -/
theorem describes_of_ofProgram {p : Program} {o : Outline} (ho : ofProgram p = .ok o) : o.Describes p := by
  have hgrown := grown_ofProgram ho
  obtain rfl : o.program = p := (tree_ofProgram ho).2.1
  have howner {id function : NodeId} : o.functionOf? id = some function ↔ o.owners[id]? = some (some function) :=
    join_eq_some_iff
  -- A node other than the root was led to through its parent.
  have hsite {id : NodeId} (hid : o.program.Reached id) (hroot : id ≠ o.program.root) :
      ∃ site : Site, o.program.Reached site.parent ∧ o.program.ChildAt site.parent site.index id := by
    obtain heq | ⟨parent, hparent, index, hchild⟩ := ReflTransGen.cases_tail hid
    · exact absurd heq hroot
    · exact ⟨⟨parent, index⟩, hparent, hchild⟩
  constructor
  · exact (checked_ofProgram ho).1
  · exact hgrown.parent?_root
  · exact hgrown.lt_size
  · exact fun index hid hchild => hgrown.not_child_root hid ⟨index, hchild⟩
  · intro id hid hroot
    obtain ⟨site, hplace⟩ := hsite hid hroot
    refine ⟨site, hplace, fun other hother => ?_⟩
    have hfound := hgrown.site_of_childAt hplace.1 hplace.2
    rw [hgrown.site_of_childAt hother.1 hother.2] at hfound
    exact some.inj hfound
  · intro id hid hroot
    obtain ⟨site, hparent, hchild⟩ := hsite hid hroot
    have hfound := hgrown.site_of_childAt hparent hchild
    refine ⟨site.parent, by simp [parent?, hfound], hparent, ?_⟩
    simpa [index, hfound] using hchild
  · exact hgrown.ancestor?_eq_root_within
  · intro id hid function
    obtain ⟨owner, hfound, hsome, -⟩ := hgrown.owner_spec hid
    rw [howner, hfound, some.injEq, hsome]
  · intro id hid
    obtain ⟨owner, hfound, -, hnone⟩ := hgrown.owner_spec hid
    rw [functionOf?, hfound, join_some, hnone]
  · intro function name id
    rw [hgrown.enrolled.label, howner]
    constructor
    · rintro ⟨hfound, hmarks⟩
      exact ⟨hgrown.reaches_iff.mp (reaches_of_owner hfound), hmarks, hfound⟩
    · rintro ⟨-, hmarks, hfound⟩
      exact ⟨hfound, hmarks⟩
  · intro name id
    rw [hgrown.enrolled.function, hgrown.reaches_iff]
  · intro id other function value value' hid hother hfunction hfunction'
    exact Nat.le_antisymm (Nat.le_of_not_lt (not_lt_of_returns ho hother hid hfunction' hfunction))
      (Nat.le_of_not_lt (not_lt_of_returns ho hid hother hfunction hfunction'))

open Builder

/-- Two functions with labels of one name, one of them around the other. -/
def nestedFunctions : Program := Builder.program do
  let again ← label "again" (← ret (some (← int 1)))
  let inner ← function "inner" .int [] [again]
  let outside ← label "again" (← empty)
  return [← function "main" .int [] [inner, outside, ← ret none]]

/-- Each label is found in the function it stands in. -/
theorem nestedFunctions_described : ∃ o, ofProgram nestedFunctions = .ok o ∧
    o.label? 4 "again" = some 2 ∧ o.label? 9 "again" = some 6 ∧ o.Describes nestedFunctions := by
  have hmade : (ofProgram nestedFunctions).toOption.any (fun o =>
      o.label? 4 "again" = some 2 ∧ o.label? 9 "again" = some 6) = true := by decide +kernel
  cases ho : ofProgram nestedFunctions with
  | error fault =>
    rw [ho] at hmade
    cases hmade
  | ok o =>
    rw [ho] at hmade
    obtain ⟨hinner, houter⟩ := of_decide_eq_true hmade
    exact ⟨o, rfl, hinner, houter, describes_of_ofProgram ho⟩

end Outline

end CoreC
