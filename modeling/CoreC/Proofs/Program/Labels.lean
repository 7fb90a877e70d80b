import CoreC.Proofs.Faults
import CoreC.Proofs.Program.Lineage

/-! # Labels that lead in a circle

What a block declares may stand behind labels. It is looked for before the walk through the
program has shown that the nodes there are new, so labels may lead back to themselves. Every way
through labels that has an end is no longer than the program. Where an outline is made all ways
have ends, and where none is made a way without end is the reason or does not matter.
-/

namespace CoreC

open Std.TreeMap Program

variable {stack : List (NodeId × Option NodeId)}

namespace Program

variable {p : Program} {hops : Nat} {id last : NodeId}

/-- So many labels in a row lead from the first node to the second, which is none or is missing. -/
inductive Passes (p : Program) : Nat → NodeId → NodeId → Prop where
  | done {id : NodeId} (hplain : ∀ name stmt, p.construct? id ≠ some (.label name stmt)) : Passes p 0 id id
  | hop {hops : Nat} {id stmt last : NodeId} {name : String}
      (hlabel : p.construct? id = some (.label name stmt)) (hrest : Passes p hops stmt last) :
      Passes p (hops + 1) id last

/-- The node is an item of a block that the root leads to. -/
def Lists (p : Program) (item : NodeId) : Prop :=
  ∃ block items, p.Reached block ∧ p.blockItems? block = some items ∧ item ∈ items

theorem Passes.hops_unique {other : Nat} {last' : NodeId} (hpasses : p.Passes hops id last)
    (hother : p.Passes other id last') : hops = other := by
  induction hpasses generalizing other with
  | done hplain =>
    cases hother with
    | done => rfl
    | hop hlabel => exact absurd hlabel (hplain _ _)
  | hop hlabel _ ih =>
    cases hother with
    | done hplain => exact absurd hlabel (hplain _ _)
    | hop hlabel' hrest =>
      cases hlabel.symm.trans hlabel'
      rw [ih hrest]

/-- No label is passed twice, so there are no more hops than nodes. -/
theorem Passes.hops_le (hpasses : p.Passes hops id last) : hops ≤ p.nodes.size := by
  cases hpasses with
  | done => exact Nat.zero_le _
  | @hop hops _ stmt _ _ hlabel hrest =>
    refine lt_of_ranked (R := fun hops id => ∃ last, p.Passes (hops + 1) id last) ?_ ?_ ?_
      ⟨last, .hop hlabel hrest⟩
    · rintro hops other id ⟨last, hpasses⟩ ⟨last', hother⟩
      exact Nat.succ.inj (hpasses.hops_unique hother)
    · rintro hops id ⟨last, hpasses⟩
      cases hpasses with
      | hop _ hrest => exact ⟨_, last, hrest⟩
    · rintro hops id ⟨last, hpasses⟩
      cases hpasses with
      | hop hlabel => exact lt_size_of_construct? hlabel

theorem throughLabels?_eq_some {fuel : Nat} :
    p.throughLabels? fuel id = some last ↔ ∃ hops < fuel, p.Passes hops id last := by
  induction fuel generalizing id with
  | zero => simp [throughLabels?]
  | succ fuel ih =>
    unfold throughLabels?
    split
    next name stmt hlabel =>
      rw [ih]
      constructor
      · rintro ⟨hops, hfew, hrest⟩
        exact ⟨hops + 1, Nat.succ_lt_succ hfew, .hop hlabel hrest⟩
      · rintro ⟨hops, hfew, hpasses⟩
        cases hpasses with
        | done hplain => exact absurd hlabel (hplain _ _)
        | hop hlabel' hrest =>
          cases hlabel.symm.trans hlabel'
          exact ⟨_, Nat.lt_of_succ_lt_succ hfew, hrest⟩
    next hplain =>
      constructor
      · rintro ⟨⟩
        exact ⟨0, Nat.succ_pos fuel, .done hplain⟩
      · rintro ⟨hops, -, hpasses⟩
        cases hpasses with
        | done => rfl
        | hop hlabel => exact absurd hlabel (hplain _ _)

/-- The bound on the walk through labels cuts none short that has an end. -/
theorem labelled?_eq_some : p.labelled? id = some last ↔ ∃ hops, p.Passes hops id last := by
  refine throughLabels?_eq_some.trans ⟨fun ⟨hops, _, hpasses⟩ => ⟨hops, hpasses⟩, fun ⟨hops, hpasses⟩ => ?_⟩
  exact ⟨hops, Nat.lt_succ_of_le hpasses.hops_le, hpasses⟩

theorem not_passes_of_labelled? (hlabelled : p.labelled? id = none) : ¬p.Passes hops id last := by
  intro hpasses
  rw [labelled?_eq_some.mpr ⟨hops, hpasses⟩] at hlabelled
  cases hlabelled

end Program

namespace Outline

variable {o o' : Outline}

/-- The labels at the items of all blocks entered so far have been passed. -/
def Unlabelled (o : Outline) : Prop :=
  ∀ block items, o.Reaches block → o.program.blockItems? block = some items →
    ∀ item ∈ items, ∃ last, o.program.labelled? item = some last

theorem exists_labelled_of_enterNode {id item : NodeId} {function inner : Option NodeId} {construct : Construct}
    {items : List NodeId} (henter : o.enterNode id function construct = .ok (o', inner))
    (hitems : construct.items? = some items) (hitem : item ∈ items) :
    ∃ last, o.program.labelled? item = some last := by
  obtain ⟨defined, placed, hdefine, hplace, hdeclare⟩ := exists_of_enterNode henter
  have hprogram : placed.program = o.program := by rw [(placeChildren_eq_ok hplace).1, (define_eq_ok hdefine).1]
  unfold declareItems at hdeclare
  rw [hitems, hprogram] at hdeclare
  obtain ⟨declared, hdeclared, -⟩ := exists_of_bind_ok hdeclare
  obtain ⟨found, -, hfound⟩ := (mem_of_mapM_ok hdeclared).1 item hitem
  unfold declaration? at hfound
  split at hfound
  · cases hfound
  next last hlast => exact ⟨last, hlast⟩

theorem Unlabelled.walk (hwalks : Walks o' stack o) (ho : o.Unlabelled) : o'.Unlabelled := by
  induction hwalks with
  | done => exact ho
  | enter hconstruct _ henter _ ih =>
    have henters := enterNode_eq_ok henter
    refine ih fun block items hblock hitems item hitem => ?_
    rw [henters.program] at hitems ⊢
    rcases (henters.reaches _).mp hblock with rfl | hold
    · rw [blockItems?, hconstruct, Option.bind_some] at hitems
      exact exists_labelled_of_enterNode henter hitems hitem
    · exact ho block items hold hitems item hitem

theorem unlabelled_ofProgram {p : Program} (ho : ofProgram p = .ok o) : o.Unlabelled := by
  refine .walk (walks_of_explore (checked_ofProgram ho).2.2) fun block items hblock => ?_
  simp [blank, Reaches] at hblock

/-- A walk enters every node once at most, so that more steps than there are nodes change nothing. -/
theorem explore_of_le {fuel more : Nat} (hknown : ∀ id, o.Reaches id → id < o.program.nodes.size)
    (hfuel : o.program.nodes.size < fuel + o.owners.size) (hmore : fuel ≤ more) :
    explore more stack o = explore fuel stack o := by
  induction fuel generalizing more stack o with
  | zero =>
    have hkeys : o.owners.keys ⊆ List.range o.program.nodes.size := fun id hid =>
      List.mem_range.mpr (hknown id (mem_keys.mp hid))
    have hle := nodup_keys.length_le_of_subset hkeys
    rw [length_keys, List.length_range] at hle
    omega
  | succ fuel ih =>
    obtain _ | more := more
    · omega
    cases stack with
    | nil => rfl
    | cons entry rest =>
      unfold explore
      split
      · rfl
      next construct hconstruct =>
        split
        · rfl
        next hnew =>
          cases henter : o.enterNode entry.1 entry.2 construct with
          | error => rfl
          | ok entered =>
            have henters := enterNode_eq_ok henter
            refine ih (fun id hid => ?_) ?_ (Nat.le_of_succ_le_succ hmore)
            · rw [henters.program]
              rcases (henters.reaches id).mp hid with rfl | hold
              · exact lt_size_of_construct? hconstruct
              · exact hknown id hold
            · rw [henters.program, (names_enterNode henter).2, size_insert, if_neg hnew]
              omega

/-- The walk through the nodes comes to its end. That through the labels at an item of a block ends
within as many hops as there are nodes, or never: where an outline is made it always ends, and
where none is made the program has another shape that is not run or a walk does not end. -/
theorem ofProgram_or_circle (p : Program) : (∀ more, p.nodes.size < more →
      explore more [(p.root, none)] (blank p) = explore (p.nodes.size + 1) [(p.root, none)] (blank p)) ∧
    (∀ hops item last, p.Passes hops item last → hops ≤ p.nodes.size) ∧
    (∀ o, ofProgram p = .ok o → ∀ item, p.Lists item → ∃ hops last, p.Passes hops item last) ∧
    ∀ fault, ofProgram p = .error fault → ∃ shape, fault = .shape shape ∧
      ∀ item, shape = .labelCycle item → p.Lists item ∧ ∀ hops last, ¬p.Passes hops item last := by
  refine ⟨fun more hmore => ?_, fun _ _ _ hpasses => hpasses.hops_le, fun o ho item hlists => ?_, ?_⟩
  · refine explore_of_le (fun id hid => ?_) ?_ hmore
    · simp [blank, Reaches] at hid
    · exact Nat.lt_add_right _ (Nat.lt_succ_self _)
  · obtain ⟨block, items, hblock, hitems, hitem⟩ := hlists
    have hgrown := grown_ofProgram ho
    obtain rfl := (tree_ofProgram ho).2.1
    obtain ⟨last, hlast⟩ := unlabelled_ofProgram ho block items (hgrown.reaches_iff.mpr hblock) hitems item hitem
    obtain ⟨hops, hpasses⟩ := labelled?_eq_some.mp hlast
    exact ⟨hops, last, hpasses⟩
  · refine raises_ofProgram_of_tracked (Q := p.Reached) (fun shape hshape => ?_) ⟨?_, ?_⟩ .refl
    · exact ⟨shape, rfl, fun item hcycle => absurd hcycle (hshape item)⟩
    · intro id child construct hid hconstruct hchild
      exact hid.tail (child_iff.mpr ⟨construct, hconstruct, hchild⟩)
    · intro id item items hid hitems hitem
      unfold declaration?
      split
      next hnone =>
        refine .error ⟨.labelCycle item, rfl, ?_⟩
        rintro _ ⟨⟩
        exact ⟨⟨id, items, hid, hitems, hitem⟩, fun hops last => not_passes_of_labelled? hnone⟩
      · split
        · exact .ok _
        · exact .ok _

/-- A function whose only statement is a label that marks itself. -/
def selfMarked : Program := Builder.program do
  return [← Builder.function "main" .int [] [← Builder.label "again" 0]]

theorem selfMarked_circles : ofProgram selfMarked = .error (.shape (.labelCycle 0)) ∧ selfMarked.Lists 0 ∧
    ∀ hops last, ¬selfMarked.Passes hops 0 last := by
  have hmain : selfMarked.Child 3 2 := ⟨0, .file [2], by decide +kernel⟩
  have hbody : selfMarked.Child 2 1 := ⟨0, .funcDef "main" .int [] 1, by decide +kernel⟩
  refine ⟨by rfl, ⟨1, [0], .tail (.single hmain) hbody, by decide +kernel⟩, fun hops last => ?_⟩
  exact not_passes_of_labelled? (by decide +kernel)

end Outline

end CoreC
