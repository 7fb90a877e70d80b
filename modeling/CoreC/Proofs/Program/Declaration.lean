import CoreC.Machine.Parallel

/-! # What a program declares

Memory is taken for a variable each time it is declared anew, so a program that declares a
variable twice in one frame has two things stand in one place. A program declares once when
no construct binds a name twice, when no object is declared twice among the globals, and when
none is used in the initializer of an earlier one.
-/

namespace CoreC

variable {id item : NodeId} {construct : Construct}

namespace Construct

/-- What a call calls. -/
def callee? : Construct → Option NodeId
  | .call callee _ => some callee
  | _ => none

/-- The names that a construct binds together in a new frame. -/
def boundTogether : Construct → List String
  | .funcDef _ _ params _ => params.map (·.name)
  | .parallel clauses _ => (Clause.privatized clauses).map Prod.fst
  | .parallelFor clauses var .. => var :: (Clause.privatized clauses).map Prod.fst
  | _ => []

end Construct

namespace Program

variable {p : Program}

theorem mem_of_construct? (hconstruct : p.construct? id = some construct) :
    ∃ node ∈ p.nodes.toList, node.construct = construct := by
  obtain ⟨node, hnode, rfl⟩ := Option.map_eq_some_iff.mp hconstruct
  exact ⟨node, Array.mem_toList_iff.mpr (Array.mem_of_getElem? hnode), rfl⟩

/-- The program calls no function whose result is undetermined. -/
def Determined (p : Program) : Prop :=
  ∀ node ∈ p.nodes.toList, ∀ callee ∈ node.construct.callee?,
    p.construct? callee ≠ some (.id "__VERIFIER_nondet_int")

instance : Decidable p.Determined :=
  inferInstanceAs (Decidable (∀ node ∈ p.nodes.toList, ∀ callee ∈ node.construct.callee?, _ ≠ _))

/-- The name stands somewhere below the node. -/
inductive Mentions (p : Program) : NodeId → String → Prop where
  | here {node : NodeId} {name : String} (hid : p.construct? node = some (.id name)) :
      Mentions p node name
  | under {node child : NodeId} {name : String} {construct : Construct}
      (hconstruct : p.construct? node = some construct) (hchild : child ∈ construct.children)
      (hmentions : Mentions p child name) : Mentions p node name

variable {name : String}

theorem mentions_iff {node : NodeId} : p.Mentions node name ↔
    p.construct? node = some (.id name) ∨ ∃ construct, p.construct? node = some construct ∧
      ∃ child ∈ construct.children, p.Mentions child name := by
  constructor
  · rintro (hid | ⟨hconstruct, hchild, hmentions⟩)
    · exact .inl hid
    · exact .inr ⟨_, hconstruct, _, hchild, hmentions⟩
  · rintro (hid | ⟨construct, hconstruct, child, hchild, hmentions⟩)
    · exact .here hid
    · exact .under hconstruct hchild hmentions

/-- The object that an item of the file declares, with its initializer. -/
def globalObject? (p : Program) (item : NodeId) : Option (String × Option NodeId) :=
  match p.construct? item with
  | some (.decl name type init) => if type.isFunctionDesignator then none else some (name, init)
  | _ => none

theorem globalObject?_eq_some {init : Option NodeId} (hobject : p.globalObject? item = some (name, init)) :
    ∃ type, p.construct? item = some (.decl name type init) ∧ ¬type.isFunctionDesignator = true := by
  unfold globalObject? at hobject
  split at hobject
  next type _ hconstruct =>
    split at hobject <;> cases hobject
    next htype => exact ⟨type, hconstruct, htype⟩
  next => cases hobject

theorem globalObject?_eq_none (hobject : p.globalObject? item = none) {type : CType} {init : Option NodeId}
    (hconstruct : p.construct? item = some (.decl name type init)) : type.isFunctionDesignator = true := by
  unfold globalObject? at hobject
  rw [hconstruct] at hobject
  dsimp only at hobject
  split at hobject
  next htype => exact htype
  next => cases hobject

/-- The objects that the file declares, in order. -/
def globals (p : Program) : List (String × Option NodeId) :=
  ((p.blockItems? p.root).getD []).filterMap p.globalObject?

/-- Of two globals the later one has another name, and the earlier one does not need it. -/
def Follows (p : Program) (earlier later : String × Option NodeId) : Prop :=
  later.1 ≠ earlier.1 ∧ ∀ init ∈ earlier.2, ¬p.Mentions init later.1

/-- No frame is asked twice for the same variable by the program's own declarations. -/
structure DeclaresOnce (p : Program) : Prop where
  together : ∀ node ∈ p.nodes.toList, node.construct.boundTogether.Nodup
  globals : p.globals.Pairwise p.Follows

theorem DeclaresOnce.nodup (hp : p.DeclaresOnce) (hconstruct : p.construct? id = some construct) :
    construct.boundTogether.Nodup := by
  obtain ⟨node, hnode, rfl⟩ := mem_of_construct? hconstruct
  exact hp.together node hnode

end Program

end CoreC
