import CoreC.Domain.Bounded
import CoreC.Domain.Exact
import CoreC.Machine.Step
import CoreC.Proofs.Program.Tree

/-! # Faults by origin

Most faults are those of the program that is run. The others are about the machine itself:
a continuation that is missing or leads back to itself, and a run that cannot go on. The
computations below the machine raise none of them, as long as the domain does not.
-/

namespace CoreC

open Fault Value Domain Resolver

variable {σ α β : Type} {B : Fault → Prop}

/-- Whether the program that is run is at fault, and not the machine. -/
def Fault.isOrdinary : Fault → Bool
  | .unsupported (.noContinuation _) | .unsupported (.continuationCycle _) => false
  | .deadlock _ | .stepLimit _ => false
  | _ => true

/-- `B` allows every fault of a program. -/
def Fault.Covers (B : Fault → Prop) : Prop := ∀ fault, fault.isOrdinary = true → B fault

/-- Every fault that comes of the computation is one that `B` allows. -/
def Raises (B : Fault → Prop) (act : Except Fault α) : Prop := ∀ fault, act = .error fault → B fault

variable {next f : α → Except Fault β} {act : Except Fault α}

namespace Raises

theorem ok (a : α) : Raises B (.ok a) := by
  intro fault hfault
  cases hfault

theorem error {fault : Fault} (hfault : B fault) : Raises B (.error fault : Except Fault α) := by
  rintro _ ⟨⟩
  exact hfault

theorem bind_of_ok (hact : Raises B act) (hnext : ∀ a, act = .ok a → Raises B (next a)) :
    Raises B (act >>= next) := by
  cases act with
  | ok a => exact hnext a rfl
  | error fault => exact error (hact fault rfl)

theorem bind (hact : Raises B act) (hnext : ∀ a, Raises B (next a)) :
    Raises B (act >>= next) := bind_of_ok hact fun a _ => hnext a

theorem map (hact : Raises B act) (f : α → β) : Raises B (act.map f) := by
  cases act with
  | ok a => exact ok (f a)
  | error fault => exact error (hact fault rfl)

theorem ite {c : Prop} [Decidable c] {yes no : Except Fault α} (hyes : Raises B yes)
    (hno : Raises B no) : Raises B (if c then yes else no) := by
  split
  · exact hyes
  · exact hno

theorem mapM_of_mem {items : List α} (hf : ∀ a ∈ items, Raises B (f a)) : Raises B (items.mapM f) := by
  rw [← List.mapM'_eq_mapM]
  induction items with
  | nil => exact ok []
  | cons a rest ih =>
    obtain ⟨ha, hrest⟩ := List.forall_mem_cons.mp hf
    exact bind ha fun b => bind (ih hrest) fun out => ok (b :: out)

theorem mapM (items : List α) (hf : ∀ a, Raises B (f a)) :
    Raises B (items.mapM f) := mapM_of_mem fun a _ => hf a

theorem foldlM {f : β → α → Except Fault β} (items : List α) (start : β)
    (hf : ∀ b a, Raises B (f b a)) : Raises B (items.foldlM f start) := by
  induction items generalizing start with
  | nil => exact ok start
  | cons a rest ih => exact bind (hf start a) fun b => ih b

end Raises

/-- As `Raises`, for a computation with a state. -/
def Throws (B : Fault → Prop) (act : EStateM Fault σ α) : Prop :=
  ∀ s fault s', act s = .error fault s' → B fault

namespace Throws

theorem pure (a : α) : Throws B (Pure.pure a : EStateM Fault σ α) := by
  intro s fault s' hrun
  cases hrun

theorem throw {fault : Fault} (hfault : B fault) :
    Throws B (MonadExcept.throw fault : EStateM Fault σ α) := by
  intro s _ s' hrun
  cases hrun
  exact hfault

theorem bind {act : EStateM Fault σ α} {next : α → EStateM Fault σ β} (hact : Throws B act)
    (hnext : ∀ a, Throws B (next a)) : Throws B (act >>= next) := by
  intro s fault s' hrun
  change EStateM.bind act next s = _ at hrun
  unfold EStateM.bind at hrun
  split at hrun
  next a middle _ => exact hnext a middle fault s' hrun
  next hfirst =>
    cases hrun
    exact hact s _ _ hfirst

theorem get : Throws B (MonadState.get : EStateM Fault σ σ) := by
  intro s fault s' hrun
  cases hrun

theorem set (s : σ) : Throws B (MonadStateOf.set s : EStateM Fault σ PUnit) := by
  intro _ fault s' hrun
  cases hrun

theorem update (f : σ → σ) : Throws B (modify f : EStateM Fault σ PUnit) := by
  intro s fault s' hrun
  cases hrun

end Throws

/-- `B` allows every fault of a program, and those that the domain raises. -/
structure Domain.Admits (ι φ : Type) [Domain ι φ] (B : Fault → Prop) : Prop where
  covers : Covers B
  arith : ∀ (t : Target) (type : IntType) (op : BinOp) (a b : ι), Raises B (arith φ t type op a b)
  unary : ∀ (t : Target) (type : IntType) (op : UnOp) (a : ι), Raises B (unary φ t type op a)
  ofBytes : ∀ t type bytes, Raises B (ofBytes φ t type bytes : Except Fault (List ι))
  intOfFloat : ∀ (t : Target) (type : IntType) (x : φ),
    Raises B (intOfFloat t type x : Except Fault (List ι))
  floatArith : ∀ (kind : FloatKind) (op : BinOp) (x y : φ), Raises B (floatArith ι kind op x y)
  floatUnary : ∀ (op : UnOp) (x : φ), Raises B (floatUnary ι op x)
  floatOfBytes : ∀ (t : Target) (kind : FloatKind) (bytes : BytePattern),
    Raises B (floatOfBytes ι t kind bytes : Except Fault (List φ))

theorem Domain.admits_all (ι φ : Type) [Domain ι φ] : Admits ι φ fun _ => True where
  covers _ _ := trivial
  arith _ _ _ _ _ _ _ := trivial
  unary _ _ _ _ _ _ := trivial
  ofBytes _ _ _ _ _ := trivial
  intOfFloat _ _ _ _ _ := trivial
  floatArith _ _ _ _ _ _ := trivial
  floatUnary _ _ _ _ := trivial
  floatOfBytes _ _ _ _ _ := trivial

/-! ## Outlines -/

namespace Outline

variable (hB : ∀ shape, (∀ item, shape ≠ .labelCycle item) → B (.shape shape))

include hB

theorem raises_requireBlock (p : Program) (id : NodeId) (role : String) (child : NodeId) :
    Raises B (requireBlock p id role child) := by
  unfold requireBlock
  split
  · exact .ok _
  · exact .error (hB _ nofun)

theorem raises_checkShape (p : Program) (id : NodeId) (construct : Construct) :
    Raises B (checkShape p id construct) := by
  have hblock := raises_requireBlock hB p id
  unfold checkShape
  split
  case h_2 =>
    refine .bind (hblock _ _) fun _ => ?_
    split
    · exact hblock _ _
    · exact .ok _
  case h_7 =>
    split
    · exact .error (hB _ nofun)
    · exact .ok _
  case h_8 => exact .ok _
  all_goals exact hblock _ _

theorem raises_define (o : Outline) (id : NodeId) (function : Option NodeId) (construct : Construct) :
    Raises B (o.define id function construct) := by
  unfold define
  split
  · exact .ite (.error (hB _ nofun)) (.ok _)
  · exact .ok _
  · split
    · exact .error (hB _ nofun)
    · exact .ite (.error (hB _ nofun)) (.ok _)
  · exact .ok _

theorem raises_placeChildren (o : Outline) (id : NodeId) (children : List NodeId) (index : Nat) :
    Raises B (o.placeChildren id children index) := by
  induction children generalizing o index with
  | nil => exact .ok _
  | cons child rest ih => exact .ite (ih _ _) (.error (hB _ nofun))

/-- Nodes below which all are such nodes, where the items of a block can be looked at. -/
structure Tracked (B : Fault → Prop) (p : Program) (Q : NodeId → Prop) : Prop where
  child : ∀ {id child construct}, Q id → p.construct? id = some construct →
    child ∈ construct.children → Q child
  item : ∀ {id item items}, Q id → p.blockItems? id = some items →
    item ∈ items → Raises B (declaration? p item)

variable {Q : NodeId → Prop} {o : Outline}

theorem raises_enterNode (hQ : Tracked B o.program Q) {id : NodeId} {function : Option NodeId}
    {construct : Construct} (hid : Q id) (hconstruct : o.program.construct? id = some construct) :
    Raises B (o.enterNode id function construct) := by
  refine .bind_of_ok (raises_define hB _ id function construct) fun entry hdefine => ?_
  refine .bind (raises_checkShape hB _ id construct) fun _ => ?_
  refine .bind_of_ok (raises_placeChildren hB _ id _ 0) fun placed hplace => ?_
  refine .bind ?_ fun _ => .ok _
  unfold declareItems
  split
  · exact .ok _
  next items hitems =>
    have hprogram : placed.program = o.program := by
      rw [(placeChildren_eq_ok hplace).1, (define_eq_ok hdefine).1]
    rw [hprogram]
    refine .bind (.mapM_of_mem fun item hitem => hQ.item hid ?_ hitem) fun _ => .ok _
    rw [Program.blockItems?, hconstruct, Option.bind_some, hitems]

theorem raises_explore (hQ : Tracked B o.program Q) {fuel : Nat} {stack : List (NodeId × Option NodeId)}
    (hstack : ∀ id ∈ onStack stack, Q id) : Raises B (explore fuel stack o) := by
  fun_induction explore fuel stack o with
  | case1 => exact .ok _
  | case2 | case3 | case4 => exact .error (hB _ nofun)
  | case5 fuel id function rest o construct hconstruct _ ih =>
    obtain ⟨hid, hrest⟩ := List.forall_mem_cons.mp hstack
    refine .bind_of_ok (raises_enterNode hB hQ hid hconstruct) fun entered henter => ?_
    refine ih _ _ ((enterNode_eq_ok henter).program ▸ hQ) fun other hother => ?_
    rw [onStack_children, List.mem_append] at hother
    exact hother.elim (hQ.child hid hconstruct) (hrest other)

theorem raises_checkReturns (o : Outline) (nodes : List (Node × NodeId)) (returned : List NodeId) :
    Raises B (o.checkReturns nodes returned) := by
  induction nodes generalizing returned with
  | nil => exact .ok _
  | cons first rest ih =>
    rw [checkReturns]
    split
    · exact .ite (.error (hB _ nofun)) (ih _)
    · exact ih _

theorem raises_ofProgram_of_tracked {p : Program} (hQ : Tracked B p Q) (hroot : Q p.root) :
    Raises B (ofProgram p) := by
  fun_cases ofProgram p with
  | case1 =>
    refine .bind (raises_explore hB (o := blank p) hQ ?_) fun o => .bind (raises_checkReturns hB o _ _) fun _ => .ok _
    simpa [onStack] using hroot
  | case2 => exact .error (hB _ fun _ => by simp)

end Outline

section Covers

variable (hB : Fault.Covers B)

include hB

theorem Outline.raises_ofProgram (p : Program) : Raises B (ofProgram p) := by
  refine raises_ofProgram_of_tracked (Q := fun _ => True) (fun _ _ => hB _ rfl) ⟨fun _ _ _ => trivial, ?_⟩ trivial
  intro id item items _ _ _
  unfold declaration?
  split
  · exact .error (hB _ rfl)
  · split
    · exact .ok _
    · exact .ok _

/-! ## Positions and layouts -/

theorem Outline.raises_position (o : Outline) (stmt : NodeId) : Raises B (o.position stmt) := by
  have hfrom fuel current : Raises B (o.positionFrom stmt fuel current) := by
    induction fuel generalizing current with
    | zero => exact .error (hB _ rfl)
    | succ fuel ih =>
      rw [positionFrom]
      split
      · exact .error (hB _ rfl)
      · split
        · exact .ok _
        · exact .ok _
        · exact ih _
        · exact .error (hB _ rfl)
  exact hfrom o.height stmt

namespace Control

theorem raises_afterBlock (o : Outline) (block : NodeId) : Raises B (afterBlock o block) := by
  have hposition := fun parent => o.raises_position hB parent
  unfold afterBlock
  split
  · exact .ok _
  · split
    · exact .ok _
    · exact .ok _
    · exact .ok _
    · exact (hposition _).map _
    · exact (hposition _).map _
    · exact (hposition _).map _
    · exact .ite (.ok _) (.error (hB _ rfl))

theorem raises_normalize (o : Outline) (control : Control) : Raises B (normalize o control) := by
  have hclimb fuel control : Raises B (climb o fuel control) := by
    induction fuel generalizing control with
    | zero =>
      unfold climb
      split
      · split
        · exact .error (hB _ rfl)
        · exact .ite (.ok _) (.error (hB _ rfl))
      · exact .ok _
    | succ fuel ih =>
      unfold climb
      split
      · split
        · exact .error (hB _ rfl)
        · exact .ite (.ok _) (.bind (raises_afterBlock hB o _) ih)
      · exact .ok _
  exact hclimb o.height control

theorem raises_successor (o : Outline) (control : Control) : Raises B (successor o control) := by
  cases control with
  | stmt block index => exact raises_normalize hB o _
  | expr node => exact .error (hB _ rfl)
  | invoke => exact .ok _

theorem raises_afterStmt (o : Outline) (stmt : NodeId) : Raises B (afterStmt o stmt) :=
  .bind (o.raises_position hB stmt) fun _ => raises_normalize hB o _

theorem raises_enter (o : Outline) (block : NodeId) : Raises B (enter o block) :=
  raises_normalize hB o _

end Control

/-- The resolver raises no other faults than `B` allows. -/
structure Resolver.RaisesOnly (B : Fault → Prop) (r : Resolver) : Prop where
  aggregateAlign : ∀ name, Raises B (r.aggregateAlign name)
  structUnits : ∀ name, Raises B (r.structUnits name)
  unionUnit : ∀ name, Raises B (r.unionUnit name)

namespace Resolver.RaisesOnly

variable {r : Resolver} (hr : r.RaisesOnly B) (t : Target)

include hr

theorem scalar (type : CType) : Raises B (scalar t r type) := by
  refine .ite (.error (hB _ rfl)) (.ite (.ok _) (.ite (.bind ?_ fun _ => .ok _) ?_))
  · cases type.base with
    | void | function | integer | floating => exact .ok _
    | struct name => exact (hr.structUnits name).map _
    | union name => exact (hr.unionUnit name).map _
  · cases type.base with
    | integer | floating | function => exact .ok _
    | void | struct | union => exact .error (hB _ rfl)

theorem layout (type : CType) : Raises B (layout t r type) := by
  refine Raises.map ?_ _
  unfold elementUnits
  split
  · exact hr.structUnits _
  · exact (hr.unionUnit _).map _
  · exact (hr.scalar hB t _).map _

theorem align (type : CType) : Raises B (align t r type) := by
  refine .ite (.ok _) ?_
  split
  · exact hr.aggregateAlign _
  · exact hr.aggregateAlign _
  · exact (hr.scalar hB t _).map _

theorem widest (fields : List Member) : Raises B (widest t r fields) :=
  .foldlM fields _ fun _ field => (hr.align hB t field.type).map _

theorem placeStruct (name : String) (fields : List Member) :
    Raises B (placeStruct t r name fields) := by
  refine .bind (.foldlM fields _ fun placed field => ?_) fun placed => .ite (.error (hB _ rfl)) (.ok _)
  exact .bind (hr.align hB t field.type) fun _ => .bind (hr.layout hB t field.type) fun _ => .ok _

theorem overlay (name : String) (fields : List Member) : Raises B (overlay t r name fields) := by
  refine .bind (.foldlM fields _ fun best field => .bind (hr.layout hB t field.type) fun layout => ?_)
    fun best => ?_
  · split
    · exact .ok _
    · exact .ok _
    · exact .ite (.ok _) (.ok _)
  · split
    · exact .error (hB _ rfl)
    · exact .ite (.ok _) (.bind (hr.widest hB t fields) fun _ => .ok _)

end Resolver.RaisesOnly

namespace Layouts

variable (l : Layouts)

theorem raises_aggregate (name : String) : Raises B (l.aggregate name) := by
  unfold aggregate
  split
  · exact .ok _
  · exact .error (hB _ rfl)

theorem raisesOnly_resolver (depth : Nat) : (l.resolver depth).RaisesOnly B := by
  have hfound := l.raises_aggregate hB
  induction depth with
  | zero =>
    have hrefuse {α} name : Raises B (l.refuse name : Except Fault α) :=
      .bind (hfound name) fun _ => .error (hB _ rfl)
    exact ⟨hrefuse, hrefuse, hrefuse⟩
  | succ depth ih =>
    refine ⟨fun name => .bind (hfound name) fun aggregate => ih.widest hB _ _,
      fun name => .bind (hfound name) fun aggregate => .ite ?_ (ih.placeStruct hB _ _ _),
      fun name => .bind (hfound name) fun aggregate => ih.overlay hB _ _ _⟩
    exact (ih.overlay hB _ _ _).map _

variable (type : CType)

theorem raises_scalar : Raises B (l.scalar type) :=
  (l.raisesOnly_resolver hB _).scalar hB _ type

theorem raises_layout : Raises B (l.layout type) :=
  (l.raisesOnly_resolver hB _).layout hB _ type

theorem raises_sizeOf : Raises B (l.sizeOf type) := (l.raises_layout hB type).map _

theorem raises_step : Raises B (l.step type) := .ite (.ok _) (l.raises_sizeOf hB type)

end Layouts

/-! ## Names -/

namespace Environment

variable (e : Environment)

variable (id : FrameId)

theorem raises_frame : Raises B (e.frame id) := by
  unfold frame
  split
  · exact .ok _
  · exact .error (hB _ rfl)

theorem raises_setGlobal : Raises B (e.setGlobal id) := by
  unfold setGlobal
  split
  · exact .error (hB _ rfl)
  · exact (e.raises_frame hB id).map _

theorem raises_declare (name : String) (type : CType) : Raises B (e.declare id name type) := by
  refine .bind (e.raises_frame hB id) fun frame => ?_
  split
  · exact .ok _
  · exact .ok _

theorem raises_findAlong (found : Frame → Option α) (chain : List (FrameId × Option Frame)) :
    Raises B (findAlong found chain) := by
  induction chain with
  | nil => exact .ok _
  | cons entry outward ih =>
    obtain ⟨id, _ | frame⟩ := entry
    · exact .error (hB _ rfl)
    · rw [findAlong]
      split
      · exact .ok _
      · exact ih

theorem raises_resolve (name : String) (declared : NodeId → Option CType) :
    Raises B (e.resolve id name declared) := by
  unfold resolve
  split
  · exact .ok _
  · refine .bind (raises_findAlong hB _ _) fun found => ?_
    split
    · exact e.raises_declare hB _ _ _
    · exact .error (hB _ rfl)

end Environment

/-! ## Types -/

theorem BinOp.raises_resultType (op : BinOp) (left right : CType) :
    Raises B (op.resultType left right) := by
  refine .ite (.ok _) ?_
  split
  · exact .ite (.ok _) (.error (hB _ rfl))
  · exact .ok _
  · exact .ok _
  · split
    · exact .ok _
    · exact .ok _
    · exact .ok _
    · exact .ok _
    · exact .error (hB _ rfl)

theorem UnOp.raises_resultType (op : UnOp) (type : CType) : Raises B (op.resultType type) := by
  cases op with
  | deref =>
    refine .ite (.ok _) ?_
    split
    · exact .ok _
    · exact .error (hB _ rfl)
  | addrOf | not | neg | plus | bitNot => exact .ok _

/-! ## Bytes and addresses -/

theorem BytePattern.raises_enumerate (p : BytePattern) (limit : Nat) :
    Raises B (p.enumerate limit) :=
  .ite (.error (hB _ rfl)) (.ite (.error (hB _ rfl)) (.ite (.error (hB _ rfl)) (.ok _)))

section Target

variable (t : Target)

theorem Target.raises_arith (type : IntType) (op : BinOp) (a b : Int) :
    Raises B (t.arith type op a b) := by
  cases op with
  | add | sub | mul | bitAnd | bitOr | bitXor => exact .ok _
  | div | mod | shl | shr => exact .ite (.error (hB _ rfl)) (.ok _)
  | eq | ne | lt | le | gt | ge => exact .error (hB _ rfl)

theorem Target.raises_arithUnary (type : IntType) (op : UnOp) (a : Int) :
    Raises B (t.arithUnary type op a) := by
  cases op with
  | neg | plus | bitNot => exact .ok _
  | not | deref | addrOf => exact .error (hB _ rfl)

end Target

namespace Heap

variable (h : Heap)

theorem raises_free (id : Nat) : Raises B (h.free id) := by
  unfold free
  split
  · exact .error (hB _ rfl)
  · exact .ite (.error (hB _ rfl)) (.ite (.ok _) (.ite (.ok _) (.error (hB _ rfl))))

theorem raises_liveBlock (id : Nat) : Raises B (h.liveBlock id) := by
  unfold liveBlock
  split
  · exact .error (hB _ rfl)
  · exact .ite (.ok _) (.error (hB _ rfl))

end Heap

namespace Store

variable {ι φ : Type} (s : Store ι φ)

variable (address : Address)

theorem raises_locate : Raises B (s.locate address) := by
  obtain ⟨base, offset⟩ := address
  unfold locate
  cases base
  case null => exact .error (hB _ rfl)
  case' heap id => refine .bind (s.heap.raises_liveBlock hB id) fun _ => ?_
  -- Whatever the base, the rest is to find the cell.
  all_goals
    dsimp only
    split
    · exact .error (hB _ rfl)
    · refine .ite (.error (hB _ rfl)) ?_
      split
      · exact .ok _
      · exact .error (hB _ rfl)

theorem raises_cell (key : Nat) : Raises B (s.cell key) := by
  unfold cell
  split
  · exact .ok _
  · exact .error (hB _ rfl)

theorem raises_numberOf : Raises B (s.numberOf address) := by
  unfold numberOf
  split
  · exact .ok _
  · split
    · exact .ok _
    · exact .error (hB _ rfl)

theorem raises_walk (fuel key : Nat) (position : Int) :
    Raises B (s.walk address fuel key position) := by
  induction fuel generalizing key position with
  | zero => exact .error (hB _ rfl)
  | succ fuel ih =>
    refine .bind (s.raises_cell hB key) fun cell => .ite (.ite (.error (hB _ rfl)) ?_) ?_
    · exact .bind (s.raises_cell hB _) fun before => ih _ _
    · exact .ite (.ite (.error (hB _ rfl)) (ih _ _)) (.ok _)

theorem raises_movePointer (delta : Int) : Raises B (s.movePointer address delta) :=
  .bind (s.raises_locate hB _) fun _ => .bind (s.raises_walk hB _ _ _ _) fun _ => .ok _

theorem throws_allocate (base : Base) (layout : Layout) :
    Throws B (allocate base layout : StoreM ι φ Address) := by
  intro s fault s' hrun
  unfold allocate at hrun
  split at hrun
  · cases hrun
  · split at hrun
    · cases hrun
      exact hB _ rfl
    · cases hrun

theorem throws_malloc (site : NodeId) (layout : Layout) :
    Throws B (malloc site layout : StoreM ι φ Address) := by
  refine .bind .get fun s => ?_
  dsimp only
  refine .bind (.set _) fun _ => ?_
  split
  · exact throws_allocate hB _ _
  · exact .bind (.update _) fun _ => .pure _

theorem throws_free : Throws B (free address : StoreM ι φ PUnit) := by
  intro s fault s' hrun
  unfold free at hrun
  split at hrun
  · split at hrun
    · cases hrun
      exact hB _ rfl
    · split at hrun
      · cases hrun
        exact hB _ rfl
      · split at hrun
        · cases hrun
        next hfree =>
          cases hrun
          exact s.heap.raises_free hB _ _ hfree
  · split at hrun <;> cases hrun
    exact hB _ rfl
  · cases hrun
    exact hB _ rfl

end Store

end Covers

/-! ## Values -/

section Admits

variable {ι φ : Type} [Domain ι φ]

namespace Value

variable (hB : Covers B)

include hB

theorem raises_exactInt (v : Value ι φ) : Raises B v.exactInt := by
  cases v with
  | int data type =>
    unfold exactInt
    dsimp only
    split
    · exact .ok _
    · exact .error (hB _ rfl)
  | float | pointer | function | uninitialized => exact .error (hB _ rfl)

theorem raises_truth (v : Value ι φ) : Raises B v.truth := by
  cases v with
  | int | float | pointer | function => exact .ok _
  | uninitialized => exact .error (hB _ rfl)

theorem raises_target (v : Value ι φ) : Raises B v.target := by
  cases v with
  | pointer => exact .ok _
  | int | float | function | uninitialized => exact .error (hB _ rfl)

theorem raises_castToFloat (kind : FloatKind) (v : Value ι φ) : Raises B (v.castToFloat kind) := by
  cases v with
  | int | float | uninitialized => exact .ok _
  | pointer | function => exact .error (hB _ rfl)

end Value

variable [DecidableEq ι] [BEq φ]

omit [Domain ι φ] in
theorem ValueSet.raises_flatMap (s : ValueSet ι φ) {f : Value ι φ → Except Fault (ValueSet ι φ)}
    (hf : ∀ v, Raises B (f v)) : Raises B (s.flatMap f) :=
  .foldlM _ _ fun _ v => (hf v).map _

variable (hB : Admits ι φ B)

include hB

namespace Value

theorem raises_castToInt (t : Target) (type : IntType) (v : Value ι φ) :
    Raises B (v.castToInt t type) := by
  cases v with
  | int | uninitialized => exact .ok _
  | float data kind => exact (hB.intOfFloat t type data).map _
  | pointer | function => exact .error (hB.covers _ rfl)

/-- By the kinds of the two operands. -/
theorem raises_operate (t : Target) (op : BinOp) (v w : Value ι φ) : Raises B (v.operate t op w) := by
  have herror {fault : Fault} (hfault : fault.isOrdinary = true) :
      Raises B (.error fault : Except Fault (ValueSet ι φ)) := .error (hB.covers fault hfault)
  have hpointers (a b : Address) (size : Nat) :
      Raises B (pointerOperation t op a size b : Except Fault (ValueSet ι φ)) :=
    .ite (.ite (.ok _) (herror rfl)) (.ite (.ok _) (herror rfl))
  have hmove (a : Address) (size : Nat) count :
      Raises B (movePointer op a size count : Except Fault (ValueSet ι φ)) :=
    .bind (raises_exactInt hB.covers count) fun _ => .ok _
  have hnull (v : Value ι φ) : Raises B (requireNull v) :=
    .bind (raises_exactInt hB.covers v) fun _ => .ite (.ok _) (.error (hB.covers _ rfl))
  unfold operate
  split
  · exact herror rfl
  · exact herror rfl
  · exact .bind (.mapM _ fun pair => .ite (.ok _) ((hB.arith t _ op pair.1 pair.2).map _)) fun _ => .ok _
  · exact .ite (.ok _) ((hB.floatArith _ op _ _).map _)
  · exact .ite (.ok _) ((hB.floatArith _ op _ _).map _)
  · exact .ite (.ok _) ((hB.floatArith _ op _ _).map _)
  · exact hpointers _ _ _
  · exact .ite (hmove _ _ _) (.ite (.bind (hnull _) fun _ => hpointers _ _ _) (herror rfl))
  · exact .ite (hmove _ _ _) (.ite (.bind (hnull _) fun _ => hpointers _ _ _) (herror rfl))
  · exact .ite (.ok _) (.ite (.ok _) (herror rfl))
  · exact herror rfl

theorem raises_operateUnary (t : Target) (op : UnOp) (v : Value ι φ) :
    Raises B (v.operateUnary t op) := by
  have htruth := (raises_truth hB.covers v).map fun results =>
    ofOutcomes (ι := ι) (φ := φ) t (results.map (!·))
  cases v with
  | uninitialized => exact .error (hB.covers _ rfl)
  | int data type => exact .ite htruth ((hB.unary t type op data).map _)
  | float data kind => exact .ite htruth ((hB.floatUnary op data).map _)
  | pointer | function => exact .ite htruth (.error (hB.covers _ rfl))

end Value

/-! ## Memory -/

namespace Store

variable (s : Store ι φ)

omit [DecidableEq ι] [BEq φ] in
theorem raises_valueBytes (size : Nat) (v : Value ι φ) : Raises B (s.valueBytes size v) := by
  unfold valueBytes
  split
  · exact .ok _
  · exact (s.raises_numberOf hB.covers _).map _
  · exact .error (hB.covers _ rfl)

theorem raises_decode (scalar : Scalar) (bytes : BytePattern) : Raises B (s.decode scalar bytes) := by
  have hofBytes (result : Except Fault (ValueSet ι φ))
      (hresult : ofBytes? s.target scalar bytes = some result) : Raises B result := by
    unfold ofBytes? at hresult
    split at hresult
    · cases hresult
      exact .ok _
    · split at hresult <;> cases hresult
      · exact (hB.ofBytes _ _ _).map _
      · exact (hB.floatOfBytes _ _ _).map _
  unfold decode
  split
  next hresult => exact hofBytes _ hresult
  · exact .bind (BytePattern.raises_enumerate hB.covers _ _) fun _ => .ok _
  · exact .error (hB.covers _ rfl)

omit [DecidableEq ι] [BEq φ] in
theorem raises_collectBytes (address : Address) (fuel key within remaining : Nat)
    (patterns : List BytePattern) :
    Raises B (s.collectBytes address fuel key within remaining patterns) := by
  induction fuel generalizing key within remaining patterns with
  | zero =>
    cases remaining with
    | zero => exact .ok _
    | succ remaining => exact .error (hB.covers _ rfl)
  | succ fuel ih =>
    cases remaining with
    | zero => exact .ok _
    | succ remaining =>
      refine .ite (.error (hB.covers _ rfl)) (.bind (s.raises_cell hB.covers key) fun cell => ?_)
      refine .bind (.bind (.mapM _ (s.raises_valueBytes hB _)) fun _ => .ok _) fun pieces => ?_
      exact .ite (.error (hB.covers _ rfl)) (ih _ _ _ _)

theorem raises_read (address : Address) (scalar : Scalar) : Raises B (s.read address scalar) := by
  refine .bind (s.raises_locate hB.covers address) fun place => .ite (.ok _) ?_
  refine .bind (s.raises_collectBytes hB _ _ _ _ _ _) fun patterns => ?_
  exact .foldlM _ _ fun _ bytes => (s.raises_decode hB scalar bytes).map _

theorem raises_repack (address : Address) (weak : Bool) (patches : List BytePattern)
    (length fuel key within consumed : Nat) :
    Raises B (s.repack address weak patches length fuel key within consumed) := by
  induction fuel generalizing key within consumed with
  | zero => exact .ite (.error (hB.covers _ rfl)) (.ok _)
  | succ fuel ih =>
    refine .ite (.ok _) (.ite (.error (hB.covers _ rfl)) ?_)
    refine .bind (s.raises_cell hB.covers key) fun cell => .bind ?_ fun contents =>
      .bind (ih _ _ _) fun rest => .ok _
    refine cell.contents.raises_flatMap fun old => .bind (s.raises_valueBytes hB _ old) fun bytes => ?_
    exact .foldlM _ _ fun _ patch => (s.raises_decode hB _ _).map _

theorem raises_updates (address : Address) (values : ValueSet ι φ) (scalar : Scalar)
    (forceWeak : Bool) : Raises B (s.updates address values scalar forceWeak) := by
  refine .bind (s.raises_locate hB.covers address) fun place => .ite (.ok _) ?_
  refine .bind (.mapM _ (s.raises_valueBytes hB _)) fun patches => ?_
  exact s.raises_repack hB _ _ _ _ _ _ _ _

theorem raises_convert (scalar : Scalar) (values : ValueSet ι φ) :
    Raises B (s.convert scalar values) := by
  refine values.raises_flatMap fun v => ?_
  unfold convertValue
  split
  · exact .ok _
  · exact .bind (s.raises_numberOf hB.covers _) fun _ => .ok _
  · exact raises_castToInt hB _ _ _
  · exact (raises_castToFloat hB.covers _ _).map _
  · exact .ok _
  · exact .bind (raises_exactInt hB.covers _) fun _ => .ite (.ok _) (.ok _)
  · exact .ok _
  · exact .ok _
  · exact .ite (.ok _) (.error (hB.covers _ rfl))
  · exact .error (hB.covers _ rfl)

theorem throws_write (address : Address) (values : ValueSet ι φ) (scalar : Scalar)
    (forceWeak : Bool) : Throws B (write address values scalar forceWeak) := by
  intro s fault s' hrun
  unfold write at hrun
  split at hrun
  · cases hrun
  next hupdates =>
    cases hrun
    exact s.raises_updates hB _ _ _ _ _ hupdates

theorem throws_writeChars (address : Address) (type : IntType) (step : Nat) (bytes : List UInt8)
    (index : Nat) : Throws B (writeChars address type step bytes index : StoreM ι φ PUnit) := by
  induction bytes generalizing index with
  | nil => exact .pure _
  | cons byte rest ih => exact .bind .get fun s => .bind (throws_write hB _ _ _ _) fun _ => ih _

theorem throws_literal (site : NodeId) (text : List UInt8) :
    Throws B (literal site text : StoreM ι φ Address) := by
  refine .bind .get fun s => ?_
  dsimp only
  refine .bind (.set _) fun _ => ?_
  split
  · refine .bind (throws_allocate hB.covers _ _) fun _ => ?_
    exact .bind (throws_writeChars hB _ _ _ _ _) fun _ => .pure _
  · exact .pure _

theorem throws_copyUnits (source dest : Address) (units : List StorageUnit) (offset : Int) :
    Throws B (copyUnits source dest units offset : StoreM ι φ PUnit) := by
  induction units generalizing offset with
  | nil => exact .pure _
  | cons unit rest ih =>
    refine .bind .get fun s => ?_
    split
    next hread => exact .throw (s.raises_read hB _ _ _ hread)
    · exact .bind (throws_write hB _ _ _ _) fun _ => ih _

theorem throws_zeroFill (base : Base) : Throws B (zeroFill base : StoreM ι φ PUnit) := by
  have hupdates (s : Store ι φ) (fuel key : Nat) : Raises B (s.zeroUpdates fuel key) := by
    induction fuel generalizing key with
    | zero => exact .error (hB.covers _ rfl)
    | succ fuel ih =>
      refine .ite (.ok _) (.bind (s.raises_cell hB.covers key) fun cell => .bind ?_ fun _ =>
        .bind (ih _) fun _ => .ok _)
      unfold zeroContents
      split
      · exact .ok _
      · exact s.raises_decode hB _ _
  intro s fault s' hrun
  unfold zeroFill at hrun
  split at hrun
  · cases hrun
    exact hB.covers _ rfl
  · split at hrun
    · cases hrun
    next hzeros =>
      cases hrun
      exact hupdates s _ _ _ hzeros

/-! ## Formatted output -/

theorem raises_readString (address : Address) : Raises B (s.readString address) := by
  have hchar (address : Address) : Raises B (s.readChar address) := by
    refine .bind (s.raises_read hB address _) fun values => ?_
    split
    · exact .bind (raises_exactInt hB.covers _) fun _ => .ok _
    · exact .error (hB.covers _ rfl)
  have hchars (fuel index : Nat) : Raises B (s.readChars address fuel index) := by
    induction fuel generalizing index with
    | zero =>
      rw [readChars]
      exact .bind (hchar _) fun byte => .ite (.ok _) (.error (hB.covers _ rfl))
    | succ fuel ih =>
      rw [readChars]
      exact .bind (hchar _) fun byte => .ite (.ok _) (.bind (ih _) fun _ => .ok _)
  exact (hchars _ _).map _

theorem raises_formatValue (widening : Nat) (spec : Char) (v : Value ι φ) :
    Raises B (s.formatValue widening spec v) := by
  have hconverted (type : IntType) : Raises B (v.castToInt s.target type) :=
    raises_castToInt hB _ _ v
  have herror {fault : Fault} (hfault : fault.isOrdinary = true) :
      Raises B (.error fault : Except Fault String) := .error (hB.covers fault hfault)
  unfold formatValue
  dsimp only
  split
  · exact herror rfl
  · exact (hconverted _).map _
  · exact (hconverted _).map _
  · exact herror rfl
  · exact herror rfl
  · exact (hconverted _).map _
  · exact (hconverted _).map _
  · exact herror rfl
  · exact herror rfl
  · split
    · exact .ok _
    · exact .ok _
    · exact herror rfl
  · exact s.raises_readString hB _
  · exact herror rfl
  · exact .ok _
  · exact herror rfl
  · exact .ite (.ok _) ((s.raises_numberOf hB.covers _).map _)
  · exact .ok _
  · exact herror rfl
  · exact herror rfl

theorem raises_format (text : String) (args : List (ValueSet ι φ)) : Raises B (s.format text args) := by
  have hparts (parts : List FormatPart) (args : List (ValueSet ι φ)) text :
      Raises B (s.formatParts parts args text) := by
    induction parts generalizing args text with
    | nil => exact .ok _
    | cons part rest ih =>
      cases part with
      | char c => exact ih _ _
      | conversion widening spec =>
        cases args with
        | nil => exact .error (hB.covers _ rfl)
        | cons values args =>
          refine .bind (.bind (.mapM _ (s.raises_formatValue hB widening spec)) fun texts => ?_)
            fun _ => ih _ _
          split
          · exact .ok _
          · exact .ok _
  exact hparts _ args ""

end Store

/-! ## The machine's own computations -/

namespace Machine

omit [DecidableEq ι] [BEq φ] hB in
theorem raises_calleeName (hB : Covers B) (values : List (Value ι φ)) :
    Raises B (calleeName values) := by
  unfold calleeName
  split
  · exact .error (hB _ rfl)
  · exact .ok _
  · exact .error (hB _ rfl)
  · exact .error (hB _ rfl)
  · exact .error (hB _ rfl)

omit [DecidableEq ι] [BEq φ] hB in
theorem raises_indexedAddresses (hB : Covers B) (m : Machine ι φ) (size : Nat)
    (bases indices : List (Value ι φ)) : Raises B (m.indexedAddresses size bases indices) := by
  refine .foldlM _ _ fun found base => .bind (raises_target hB base) fun start => ?_
  refine .foldlM _ _ fun found index => .bind (raises_exactInt hB index) fun n => ?_
  exact .bind (m.store.raises_movePointer hB start _) fun _ => .ok _

omit [DecidableEq ι] [BEq φ] hB in
theorem raises_countOf (hB : Covers B) (function : String) (values : ValueSet ι φ) :
    Raises B (countOf function values) := by
  refine .bind (.mapM _ (raises_exactInt hB)) fun counts => ?_
  split
  · exact .ite (.ok _) (.error (hB _ rfl))
  · exact .error (hB _ rfl)

omit [DecidableEq ι] [BEq φ] hB in
theorem raises_truths (hB : Covers B) (values : ValueSet ι φ) : Raises B (truths values) :=
  .foldlM _ _ fun _ v => .bind (raises_truth hB v) fun _ => .ok _

omit [DecidableEq ι] [BEq φ] [Domain ι φ] hB in
theorem raises_singleValue (hB : Covers B) (what : String) (values : ValueSet ι φ) :
    Raises B (singleValue what values) := by
  unfold singleValue
  split
  · exact .ok _
  · exact .error (hB _ rfl)

theorem raises_loopValues (t : Target) (range : LoopRange ι φ) (fuel : Nat) (current : Value ι φ)
    (passed : List (Value ι φ)) : Raises B (loopValues t range fuel current passed) := by
  have hcontinues (current : Value ι φ) : Raises B (continues t range current) := by
    refine .bind (raises_operate hB t _ current _) fun tests => ?_
    refine .bind (.mapM _ (raises_truth hB.covers)) fun outcomes => ?_
    dsimp only
    split
    · exact .ok _
    · exact .ok _
    · exact .error (hB.covers _ rfl)
  have hnext (current : Value ι φ) : Raises B (nextValue t range current) := by
    have hstep := Raises.bind (raises_operate hB t range.stepOp current range.step) fun values =>
      raises_singleValue hB.covers "loop counter" values
    unfold nextValue
    split
    · exact hstep
    · exact hstep
    · exact hstep
    · exact hstep
    · exact .error (hB.covers _ rfl)
  induction fuel generalizing current passed with
  | zero =>
    rw [loopValues]
    exact .bind (hcontinues current) fun b => .ite (.error (hB.covers _ rfl)) (.ok _)
  | succ fuel ih =>
    rw [loopValues]
    exact .bind (hcontinues current) fun b => .ite (.bind (hnext current) fun _ => ih _ _) (.ok _)

omit [DecidableEq ι] [BEq φ] [Domain ι φ] hB in
theorem raises_returnScalar (hB : Covers B) (m : Machine ι φ) (stmt : NodeId) :
    Raises B (m.returnScalar stmt) := by
  unfold returnScalar
  split
  · exact .ite (.ok _) ((m.layouts.raises_scalar hB _).map _)
  · exact .ok _

end Machine

end Admits

/-! ## The domains -/

theorem Fault.covers_isOrdinary : Covers fun fault => fault.isOrdinary = true := fun _ h => h

theorem Exact.admits : Admits Int Double fun fault => fault.isOrdinary = true where
  covers := covers_isOrdinary
  arith t type op a b := (t.raises_arith covers_isOrdinary type op a b).map _
  unary t type op a := (t.raises_arithUnary covers_isOrdinary type op a).map _
  ofBytes _ _ _ := .bind (BytePattern.raises_enumerate covers_isOrdinary _ _) fun _ => .ok _
  intOfFloat _ _ _ := .ite (.ok _) (.error rfl)
  floatArith kind op x y := by
    cases op with
    | add | sub | mul | div => exact .ok _
    | _ => exact .error rfl
  floatUnary op x := by
    cases op with
    | neg | plus => exact .ok _
    | _ => exact .error rfl
  floatOfBytes t kind bytes := by
    change Raises _ (Exact.floatOfBytes t kind bytes)
    unfold Exact.floatOfBytes
    split
    · exact .ok _
    · exact .error rfl

namespace Sign

theorem raises_arith (signed : Bool) (op : BinOp) (a b : Sign) :
    Raises (fun fault => fault.isOrdinary = true) (arith signed op a b) :=
  .ite (.error rfl) (.ok _)

theorem raises_unary (signed : Bool) (op : UnOp) (a : Sign) :
    Raises (fun fault => fault.isOrdinary = true) (unary signed op a) := by
  cases op with
  | neg | plus | bitNot => exact .ok _
  | not | deref | addrOf => exact .error rfl

theorem raises_floatArith (op : BinOp) (a b : Sign) :
    Raises (fun fault => fault.isOrdinary = true) (floatArith op a b) := by
  cases op with
  | add | sub | mul => exact raises_arith true _ a b
  | div => exact .ite (.ok _) (raises_arith true _ a b)
  | _ => exact .error rfl

theorem raises_floatUnary (op : UnOp) (a : Sign) :
    Raises (fun fault => fault.isOrdinary = true) (floatUnary op a) := by
  cases op with
  | neg => exact raises_unary true .neg a
  | plus => exact raises_unary true .plus a
  | _ => exact .error rfl

theorem admits : Admits Sign Sign fun fault => fault.isOrdinary = true where
  covers := covers_isOrdinary
  arith _ _ op a b := raises_arith _ op a b
  unary _ _ op a := raises_unary _ op a
  ofBytes _ _ _ := .ok _
  intOfFloat _ _ _ := .ok _
  floatArith _ := raises_floatArith
  floatUnary := raises_floatUnary
  floatOfBytes _ _ _ := .ok _

end Sign

theorem Bounded.admits : Admits Bounded Sign fun fault => fault.isOrdinary = true where
  covers := covers_isOrdinary
  arith t type op a b := by
    change Raises _ (Bounded.arith t type op a b)
    unfold Bounded.arith
    split
    · exact (t.raises_arith covers_isOrdinary type op _ _).map _
    · exact .ite (.error rfl) (.ok _)
  unary t type op a := by
    cases a with
    | known x => exact (t.raises_arithUnary covers_isOrdinary type op x).map _
    | top => exact .ok _
  ofBytes _ _ _ := .ok _
  intOfFloat _ _ _ := .ok _
  floatArith _ := Sign.raises_floatArith
  floatUnary := Sign.raises_floatUnary
  floatOfBytes _ _ _ := .ok _

end CoreC
