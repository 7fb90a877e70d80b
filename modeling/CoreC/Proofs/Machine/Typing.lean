import CoreC.Proofs.Machine.Naming
import CoreC.Proofs.Machine.Typed
import CoreC.Proofs.Value.Typing

/-! # Types of expressions

Typing rules for expressions, seen from a frame of a machine. A name has the type that it is
declared with. A comparison is an `int` whatever it compares, and a cast has the type it names;
arithmetic takes neither void nor a function. The rules agree with the type that the machine
works out for an expression, evaluation does not change what they say, and an expression to
which they give a type evaluates to values that suit the type.
-/

namespace CoreC.Machine

open CType Value ValueSet Option Store List

variable {ι φ : Type}

/-- The expression has the type, seen from the frame. Only names that stand for one thing wherever
they are looked up have a type, and only calls of library functions, as no other call is part of
an expression that evaluates. -/
inductive HasType (m : Machine ι φ) (frame : FrameId) : NodeId → CType → Prop where
  | literal {node : NodeId} {value : Literal} (hnode : m.program.construct? node = some (.literal value)) :
      HasType m frame node value.type
  | object {node : NodeId} {name : String} {type : CType} (hnode : m.program.construct? node = some (.id name))
      (hname : m.namesFunction frame name = false) (htype : m.nameType? frame name = some type) :
      HasType m frame node type
  | function {node : NodeId} {name : String} (hnode : m.program.construct? node = some (.id name))
      (hname : (m.outline.function? name).isSome) (hfree : m.nameType? frame name = none) :
      HasType m frame node (.plain .function)
  | comparison {node left right : NodeId} {op : BinOp}
      (hnode : m.program.construct? node = some (.binary op left right)) (hop : op.isRelational = true) :
      HasType m frame node .int
  | arithmetic {node left right : NodeId} {op : BinOp} {leftType rightType type : CType}
      (hnode : m.program.construct? node = some (.binary op left right)) (hop : op.isRelational = false)
      (hleft : HasType m frame left leftType) (hright : HasType m frame right rightType)
      (hleftOperand : leftType.IsOperand) (hrightOperand : rightType.IsOperand)
      (htype : op.resultType leftType rightType = .ok type) : HasType m frame node type
  | not {node operand : NodeId} (hnode : m.program.construct? node = some (.unary .not operand)) :
      HasType m frame node .int
  | unary {node operand : NodeId} {op : UnOp} {operandType type : CType}
      (hnode : m.program.construct? node = some (.unary op operand)) (hop : op ≠ .not)
      (hoperand : HasType m frame operand operandType) (htype : op.resultType operandType = .ok type) :
      HasType m frame node type
  | cast {node operand : NodeId} {type : CType}
      (hnode : m.program.construct? node = some (.cast type operand)) : HasType m frame node type
  | sizeOf {node : NodeId} {type : CType} (hnode : m.program.construct? node = some (.sizeOf type)) :
      HasType m frame node (.integer .unsignedLong)
  | index {node array position : NodeId} {arrayType type : CType}
      (hnode : m.program.construct? node = some (.index array position))
      (harray : HasType m frame array arrayType) (htype : arrayType.pointee? = some type) :
      HasType m frame node type
  | call {node callee : NodeId} {args : List NodeId} {name : String}
      (hnode : m.program.construct? node = some (.call callee args))
      (hcallee : m.program.construct? callee = some (.id name)) (hname : m.outline.function? name = none)
      (hfree : m.nameType? frame name = none) : HasType m frame node (libraryReturnType name)

/-- The typing rules give the expression a type. -/
def WellTyped (m : Machine ι φ) (frame : FrameId) (node : NodeId) : Prop := ∃ type, HasType m frame node type

section Names

variable {m m' : Machine ι φ} {frame : FrameId}

/-- A name without a type is not bound. -/
theorem lookup_eq_none_of_nameType? {name : String} (hfree : m.nameType? frame name = none) :
    m.env.lookup frame name = none := by
  unfold nameType? Environment.typeOf? at hfree
  split at hfree
  · cases hfree
  · assumption

theorem Elaborates.namesFunction_eq_false {name : String} (h : Elaborates frame m m')
    (hname : m.namesFunction frame name = false) : m'.namesFunction frame name = false := by
  simp only [namesFunction, Bool.and_eq_false_iff, isNone_eq_false_iff,
    isSome_eq_false_iff] at hname ⊢
  rw [h.outline]
  refine hname.imp_left fun hbound => ?_
  obtain ⟨b, hb⟩ := isSome_iff_exists.mp hbound
  rw [h.env.bound hb, isSome_some]

/-- Evaluation does not change the types of expressions. -/
theorem HasType.elaborates {node : NodeId} {type : CType} (h : Elaborates frame m m')
    (htype : HasType m frame node type) : HasType m' frame node type := by
  have hprogram := h.program_eq.symm
  induction htype with
  | literal hnode => exact .literal (hprogram ▸ hnode)
  | object hnode hname htype =>
    exact .object (hprogram ▸ hnode) (h.namesFunction_eq_false hname) ((h.nameType?_eq _).trans htype)
  | function hnode hname hfree =>
    exact .function (hprogram ▸ hnode) (h.outline ▸ hname) ((h.nameType?_eq _).trans hfree)
  | comparison hnode hop => exact .comparison (hprogram ▸ hnode) hop
  | arithmetic hnode hop _ _ hleft hright htype ihleft ihright =>
    exact .arithmetic (hprogram ▸ hnode) hop ihleft ihright hleft hright htype
  | not hnode => exact .not (hprogram ▸ hnode)
  | unary hnode hop _ htype ih => exact .unary (hprogram ▸ hnode) hop ih htype
  | cast hnode => exact .cast (hprogram ▸ hnode)
  | sizeOf hnode => exact .sizeOf (hprogram ▸ hnode)
  | index hnode _ htype ih => exact .index (hprogram ▸ hnode) ih htype
  | call hnode hcallee hname hfree =>
    exact .call (hprogram ▸ hnode) (hprogram ▸ hcallee) (h.outline ▸ hname) ((h.nameType?_eq _).trans hfree)

end Names

section Evaluation

theorem isAddress_addrOf {type operandType : CType} (htype : UnOp.resultType .addrOf operandType = .ok type) :
    type.isAddress = true := by
  cases htype
  unfold isAddress isPointer isArray
  split
  · cases hlength : operandType.length? <;> simp [pointerTo, hlength]
  · simp [addressOf, pointerTo, element]

variable [DecidableEq ι] [BEq φ] [Domain ι φ] {m m' : Machine ι φ} {frame : FrameId} {state : State}
  {node : NodeId} {type found : CType} {fuel : Nat}

section Construct

variable {construct : Construct} (hnode : m.program.construct? node = some construct)

include hnode

omit [DecidableEq ι] [BEq φ] [Domain ι φ] in
theorem bind_constructAt {α : Type} (next : Construct → MachineM ι φ α) :
    (constructAt node >>= next) m = next construct m := by
  change (EStateM.bind (constructAt node) next) m = _
  rw [EStateM.bind, constructAt_eq_ok.mpr ⟨hnode, rfl⟩]

theorem evalWithin_succ : evalWithin state (fuel + 1) node m =
    valuesOf (evalWithin state fuel) (addressesWithin state fuel) state node construct m :=
  bind_constructAt hnode _

end Construct

/-- The type that the machine works out is the one that the rules give. -/
theorem HasType.eq_of_typeWithin (htype : HasType m frame node type)
    (hfound : typeWithin frame fuel node m = .ok found m') : found = type := by
  induction fuel generalizing node type found m m' with
  | zero => cases hfound
  | succ fuel ih =>
    have hrun {construct} (hnode : m.program.construct? node = some construct) :
        typeOfConstruct (typeWithin frame fuel) frame construct m = .ok found m' :=
      (bind_constructAt hnode _).symm.trans hfound
    cases htype with
    | literal hnode | cast hnode | sizeOf hnode =>
      cases hrun hnode
      rfl
    | object hnode hname htype =>
      replace hfound := get_bind_eq_ok.mp (hrun hnode)
      rw [hname] at hfound
      obtain ⟨binding, _, hresolve, hfound⟩ := bind_eq_ok.mp hfound
      cases hfound
      exact some.inj ((nameType?_of_resolveName hresolve).symm.trans htype)
    | function hnode hname hfree =>
      replace hfound := get_bind_eq_ok.mp (hrun hnode)
      rw [namesFunction, lookup_eq_none_of_nameType? hfree, hname] at hfound
      cases hfound
      rfl
    | comparison hnode hop =>
      obtain ⟨leftType, _, -, hfound⟩ := bind_eq_ok.mp (hrun hnode)
      obtain ⟨rightType, _, -, hfound⟩ := bind_eq_ok.mp hfound
      obtain ⟨hresult, -⟩ := check_eq_ok.mp hfound
      rw [BinOp.resultType, if_pos hop] at hresult
      cases hresult
      rfl
    | arithmetic hnode hop hleft hright hleftOperand hrightOperand htype =>
      obtain ⟨leftType, _, hleftFound, hfound⟩ := bind_eq_ok.mp (hrun hnode)
      obtain ⟨rightType, _, hrightFound, hfound⟩ := bind_eq_ok.mp hfound
      obtain ⟨hresult, -⟩ := check_eq_ok.mp hfound
      -- The right operand is typed where the left one may have bound names.
      have hlater := hright.elaborates (elaborates_of_ok
        (EvalRules.typeWithin (d := elaborationRules m.layouts frame) fuel rfl) hleftFound)
      rw [ih hleft hleftFound, ih hlater hrightFound, htype] at hresult
      cases hresult
      rfl
    | not hnode =>
      obtain ⟨operandType, _, -, hfound⟩ := bind_eq_ok.mp (hrun hnode)
      obtain ⟨hresult, -⟩ := check_eq_ok.mp hfound
      cases hresult
      rfl
    | unary hnode hop hoperand htype =>
      obtain ⟨operandType, _, hoperandFound, hfound⟩ := bind_eq_ok.mp (hrun hnode)
      obtain ⟨hresult, -⟩ := check_eq_ok.mp hfound
      rw [ih hoperand hoperandFound, htype] at hresult
      cases hresult
      rfl
    | index hnode harray htype =>
      obtain ⟨arrayType, _, harrayFound, hfound⟩ := bind_eq_ok.mp (hrun hnode)
      rw [ih harray harrayFound, htype] at hfound
      cases hfound
      rfl
    | call hnode hcallee hname hfree =>
      replace hfound := get_bind_eq_ok.mp (hrun hnode)
      simp only [hcallee, lookup_eq_none_of_nameType? hfree, hname] at hfound
      cases hfound
      rfl

theorem HasType.eq_of_staticType (htype : HasType m frame node type)
    (hfound : staticType frame node m = .ok found m') : found = type :=
  htype.eq_of_typeWithin (get_bind_eq_ok.mp hfound)

theorem elaborates_staticType (hfound : staticType frame node m = .ok found m') :
    Elaborates frame m m' :=
  elaborates_of_ok (EvalRules.staticType (d := elaborationRules m.layouts frame) rfl) hfound

/-! ## Values -/

/-- An address operator gives addresses, or the function that its operand names. -/
theorem suits_addressValue {operand : NodeId} {values : ValueSet ι φ} {t : Target}
    (haddress : type.isAddress = true)
    (hvalues : addressValue (evalWithin state fuel) (addressesWithin state fuel) state operand m =
      .ok values m') : ∀ v ∈ values.items, v.Suits t type := by
  have hplaces {m m'} {values} (hvalues : (do
      let type ← staticType state.frame operand
      let step ← check ((← get).layouts.step type)
      return .ofList ((← addressesWithin state fuel operand).map (.pointer · step)) :
        MachineM ι φ (ValueSet ι φ)) m = .ok values m') : ∀ v ∈ values.items, v.Suits t type := by
    obtain ⟨_, _, -, hvalues⟩ := bind_eq_ok.mp hvalues
    obtain ⟨_, _, -, hvalues⟩ := bind_eq_ok.mp hvalues
    obtain ⟨step, _, -, hvalues⟩ := bind_eq_ok.mp hvalues
    obtain ⟨places, _, -, hvalues⟩ := bind_eq_ok.mp hvalues
    cases hvalues
    exact forall_mem_ofList (forall_mem_map.mpr fun _ _ => .pointer haddress _ _)
  replace hvalues := get_bind_eq_ok.mp hvalues
  split at hvalues
  next name hnode =>
    dsimp only at hvalues
    split at hvalues
    next hfunction =>
      cases fuel with
      | zero => cases hvalues
      | succ fuel =>
        rw [evalWithin_succ hnode] at hvalues
        replace hvalues := get_bind_eq_ok.mp hvalues
        rw [if_pos hfunction] at hvalues
        cases hvalues
        exact forall_mem_singleton.mpr (.callable haddress name)
    next => exact hplaces hvalues
  next => exact hplaces hvalues

variable [Domain.Ranged ι φ] {t : Target}

omit [Domain.Ranged ι φ] in
theorem Sound.of_ok {α : Type} {Q : α → Prop} {act : MachineM ι φ α} (hact : Sound t Q act)
    (hm : m.Typed t) {a : α} (hrun : act m = .ok a m') : m'.Typed t ∧ Q a := by
  obtain ⟨hleft, -, hresult⟩ := hact m hm trivial
  rw [leaves_of_ok hrun] at hleft
  exact ⟨hleft, hresult a m' hrun⟩

theorem sound_evalWithin (state : State) (fuel : Nat) (node : NodeId) :
    Sound t (fun _ => True) (evalWithin state fuel node : MachineM ι φ (ValueSet ι φ)) :=
  ((typedRules t).toDeclarationRules.within state fuel node trivial).1

theorem sound_staticType : Sound t (fun _ => True) (staticType frame node : MachineM ι φ CType) :=
  (typedRules t).toDeclarationRules.staticType trivial

/-- What is read from typed memory as an object of a type suits the type. -/
theorem suits_load (places : List Address) (type : CType) :
    Sound t (fun values => ∀ v ∈ values.items, v.Suits t type)
      (load places type : MachineM ι φ (ValueSet ι φ)) := by
  refine .bind .get fun m hm => ?_
  split
  next harray =>
    refine .bind (.check fun _ _ => trivial) fun step _ => .pure (forall_mem_ofList ?_)
    exact forall_mem_map.mpr fun _ _ => .pointer (by simp [isAddress, harray]) _ _
  next =>
    split
    · exact .throw _
    refine .bind (P := fun scalar => m.layouts.scalar type = .ok scalar)
      (.check fun _ h => h) fun scalar hscalar => ?_
    refine .check fun values hvalues => ?_
    refine forall_mem_foldlM (fun address _ given hgiven v hv => ?_) hvalues
    have hfits := (Typed.read hm.store hgiven).forall_mem v hv
    rw [hm.target] at hfits
    exact hfits.suits hscalar

theorem suits_intValue (n : Int) : Sound t (fun values => ∀ v ∈ values.items, v.Suits t .int)
    (intValue n : MachineM ι φ (ValueSet ι φ)) := by
  refine .bind .get fun m hm => .pure ?_
  rw [hm.settings]
  exact forall_mem_singleton.mpr (suits_ofInt t .int n)

theorem suits_literalValue (node : NodeId) (value : Literal) :
    Sound t (fun values => ∀ v ∈ values.items, v.Suits t value.type)
      (literalValue node value : MachineM ι φ (ValueSet ι φ)) := by
  refine .bind .get fun m hm => ?_
  rw [hm.settings]
  cases value with
  | int n type => exact .pure (forall_mem_singleton.mpr (suits_ofInt t type n))
  | char code => exact .pure (forall_mem_singleton.mpr (suits_ofInt t .int _))
  | float x kind => exact .pure (forall_mem_singleton.mpr (.float kind _))
  | str text =>
    refine .bind ((typedRules t).literalAddress node text) fun address _ => .pure ?_
    exact forall_mem_singleton.mpr (.pointer rfl _ _)

theorem suits_allocateBlock (call : NodeId) (size : Nat) (zeroed : Bool) :
    Sound t (fun values => ∀ v ∈ values.items, v.Suits t void.pointerTo)
      (allocateBlock call size zeroed : MachineM ι φ (ValueSet ι φ)) := by
  unfold allocateBlock
  split
  · exact .pure (forall_mem_singleton.mpr (.pointer rfl _ _))
  · refine .bind .get fun m _ =>
      .bind (.onStore ((typing t).malloc (fun _ _ _ => trivial) call fun _ _ => trivial)) fun address _ => ?_
    have hpointer : ∀ v ∈ (singleton (.pointer address 1 : Value ι φ)).items,
        v.Suits t void.pointerTo := forall_mem_singleton.mpr (.pointer rfl _ _)
    cases zeroed with
    | true => exact .bind (.onStore (types_zeroFill t _)) fun _ _ => .pure hpointer
    | false => exact .pure hpointer

/-- Library functions return values of the types that they are known to return. -/
theorem suits_callLibrary {eval : NodeId → MachineM ι φ (ValueSet ι φ)}
    (heval : ∀ node, Sound t (fun _ => True) (eval node)) (state : State) (call : NodeId) (name : String)
    (args : List NodeId) :
    Sound t (fun values => ∀ v ∈ values.items, v.Suits t (libraryReturnType name))
      (callLibrary eval state call name args) := by
  unfold callLibrary
  split
  · cases args with
    | nil => exact .throw _
    | cons format args =>
      refine .bind .get fun m _ => ?_
      split
      · refine .bind ((typedRules t).mapM args fun arg _ => heval arg) fun _ _ => ?_
        refine .bind .get fun m _ => .bind (.check fun _ _ => trivial) fun printed _ => ?_
        exact .bind (.aside (fun _ => rfl) fun _ => rfl) fun _ _ => suits_intValue _
      · exact .throw _
  · exact .bind (heval _) fun values _ => .bind (.check fun _ _ => trivial) fun bytes _ =>
      suits_allocateBlock call bytes false
  · refine .bind (heval _) fun values _ => .bind (.check fun _ _ => trivial) fun elements _ => ?_
    refine .bind (heval _) fun values _ => .bind (.check fun _ _ => trivial) fun bytes _ => ?_
    exact suits_allocateBlock call _ true
  · refine .bind (heval _) fun values _ =>
      .bind ((typedRules t).forM _ fun v _ => (typedRules t).freeValue v) fun _ _ => ?_
    exact .bind .get fun m _ => .pure fun v _ => .void v
  · refine .bind .get fun m hm => .pure ?_
    rw [hm.settings]
    exact forall_mem_ofList (forall_mem_map.mpr fun n _ => suits_ofInt t .int n)
  · exact .bind .get fun m _ => suits_intValue _
  · exact .bind .get fun m _ => suits_intValue _
  · refine .bind (heval _) fun values _ => .bind (.check fun _ _ => trivial) fun n _ => ?_
    exact .bind (.onTeams _) fun _ _ => .bind .get fun m _ => .pure fun v _ => .void v
  all_goals exact .throw _

variable {values : ValueSet ι φ}

omit [DecidableEq ι] [BEq φ] [Domain.Ranged ι φ] in
/-- What leads to a function is not read from memory. -/
theorem suits_deref_function {operandType : CType} (htype : UnOp.resultType .deref operandType = .ok type)
    (hfunction : type.isFunction = true) {v : Value ι φ} (hv : v.Suits t operandType) : v.Suits t type := by
  unfold UnOp.resultType at htype
  dsimp only at htype
  split at htype
  · cases htype
    exact hv
  next hobject =>
    -- Only a pointer to a pointer to a function is left.
    obtain ⟨base, pointers, length⟩ := operandType
    unfold pointee? at htype
    cases length with
    | some n =>
      cases htype
      exact absurd hfunction hobject
    | none =>
      by_cases hpointers : pointers = 0
      · subst hpointers
        cases htype
      · simp only [isArray, isSome_none, Bool.false_eq_true, if_false, hpointers] at htype
        cases htype
        simp only [isFunction, Bool.and_eq_true, decide_eq_true_eq, not_and] at hfunction hobject
        obtain ⟨rfl, hshort⟩ := hfunction
        have hlong := hobject rfl
        have haddress : isAddress ⟨.function, pointers - 1, none⟩ = true := by
          simp only [isAddress, isPointer, isNone_none, Bool.true_and, Bool.or_eq_true,
            decide_eq_true_eq]
          omega
        cases hv with
        | uninitialized => exact .uninitialized _ _
        | pointer _ address size => exact .pointer haddress _ _
        | callable _ name => exact .callable haddress _
        | function => exact absurd rfl hpointers

/-- What is read at the places that an expression leads to suits the type that it is read with. -/
theorem suits_load_addressesOf (hm : m.Typed t) {construct : Construct}
    (hnode : m.program.construct? node = some construct)
    (hvalues : (addressesOf (evalWithin state fuel) (addressesWithin state fuel) state node construct >>=
      fun places => load places type) m = .ok values m') : ∀ v ∈ values.items, v.Suits t type := by
  let d : EvalRules ι φ := (typedRules t).toDeclarationRules.toEvalRules
  have hplaces : Sound t (fun _ => True)
      (addressesOf (evalWithin state fuel) (addressesWithin state fuel) state node construct) :=
    EvalRules.addressesOf (d := d) (fun node _ => (d.within state fuel node trivial).1)
      (fun node _ => (d.within state fuel node trivial).2) trivial ⟨m, hm, hnode⟩
  exact (Sound.of_ok (.bind hplaces fun places _ => suits_load places type) hm hvalues).2

section Operands

variable {values : ValueSet ι φ} (hm : m.Typed t)
  (hvalues : evalWithin state (fuel + 1) node m = .ok values m')

include hm hvalues

/-- A binary operator is evaluated on the values of its operands, the left one first. -/
theorem evalWithin_binary {op : BinOp} {left right : NodeId}
    (hnode : m.program.construct? node = some (.binary op left right)) :
    ∃ lefts middle rights last, evalWithin state fuel left m = .ok lefts middle ∧
      evalWithin state fuel right middle = .ok rights last ∧ middle.Typed t ∧
      lefts.lift₂ rights (operate t op) = .ok values := by
  rw [evalWithin_succ hnode] at hvalues
  obtain ⟨lefts, middle, hlefts, hvalues⟩ := bind_eq_ok.mp hvalues
  obtain ⟨rights, last, hrights, hvalues⟩ := bind_eq_ok.mp hvalues
  replace hvalues := get_bind_eq_ok.mp hvalues
  obtain ⟨hresult, -⟩ := check_eq_ok.mp hvalues
  have hmiddle := ((sound_evalWithin state fuel left).of_ok hm hlefts).1
  rw [((sound_evalWithin state fuel right).of_ok hmiddle hrights).1.settings] at hresult
  exact ⟨lefts, middle, rights, last, hlefts, hrights, hmiddle, hresult⟩

/-- A unary operator that is not about addresses is evaluated on the values of its operand. -/
theorem evalWithin_unary {op : UnOp} {operand : NodeId}
    (hnode : m.program.construct? node = some (.unary op operand)) (hderef : op ≠ .deref)
    (haddrOf : op ≠ .addrOf) :
    ∃ operands middle, evalWithin state fuel operand m = .ok operands middle ∧
      operands.flatMap (operateUnary t op) = .ok values := by
  rw [evalWithin_succ hnode] at hvalues
  cases op with
  | deref => exact absurd rfl hderef
  | addrOf => exact absurd rfl haddrOf
  | neg | plus | not | bitNot =>
    obtain ⟨operands, middle, hoperands, hvalues⟩ := bind_eq_ok.mp hvalues
    replace hvalues := get_bind_eq_ok.mp hvalues
    obtain ⟨hresult, -⟩ := check_eq_ok.mp hvalues
    rw [((sound_evalWithin state fuel operand).of_ok hm hoperands).1.settings] at hresult
    exact ⟨operands, middle, hoperands, hresult⟩

end Operands

/-- An expression that the rules give a type evaluates to values that suit the type. -/
theorem HasType.suits (hm : m.Typed t) (htype : HasType m state.frame node type)
    (hvalues : evalWithin state fuel node m = .ok values m') : ∀ v ∈ values.items, v.Suits t type := by
  induction fuel generalizing node type values m m' with
  | zero => cases hvalues
  | succ fuel ih =>
    have hrun {construct} (hnode : m.program.construct? node = some construct) :
        valuesOf (evalWithin state fuel) (addressesWithin state fuel) state node construct m =
          .ok values m' := (evalWithin_succ hnode).symm.trans hvalues
    cases htype with
    | literal hnode => exact ((suits_literalValue node _).of_ok hm (hrun hnode)).2
    | object hnode hname htype =>
      replace hvalues := get_bind_eq_ok.mp (hrun hnode)
      rw [hname] at hvalues
      obtain ⟨binding, _, hresolve, hvalues⟩ := bind_eq_ok.mp hvalues
      obtain ⟨hlater, -⟩ := Sound.of_ok ((typedRules t).resolveName _ _) hm hresolve
      have hbinding := some.inj ((nameType?_of_resolveName hresolve).symm.trans htype)
      rw [hbinding] at hvalues
      exact ((suits_load _ _).of_ok hlater hvalues).2
    | function hnode hname hfree => exact fun v _ => .function v
    | comparison hnode hop =>
      obtain ⟨lefts, _, rights, _, -, -, -, hresult⟩ := evalWithin_binary hm hvalues hnode
      exact forall_mem_lift₂ (fun _ _ _ _ _ hout => suits_operate_relational hop hout) hresult
    | @arithmetic _ left _ _ _ _ _ hnode hop hleft hright hleftOperand hrightOperand htype =>
      obtain ⟨lefts, middle, rights, _, hlefts, hrights, hmiddle, hresult⟩ :=
        evalWithin_binary hm hvalues hnode
      -- The right operand is evaluated where the left one may have bound names.
      have hlater := hright.elaborates
        (elaborates_of_ok (EvalRules.within state fuel left rfl).1 hlefts)
      refine forall_mem_lift₂ (fun a ha b hb out hout => ?_) hresult
      exact suits_operate_arithmetic hop hleftOperand hrightOperand htype (ih hm hleft hlefts a ha)
        (ih hmiddle hlater hrights b hb) hout
    | not hnode =>
      obtain ⟨operands, _, -, hresult⟩ := evalWithin_unary hm hvalues hnode (by decide) (by decide)
      exact forall_mem_foldlM (fun _ _ _ hout => suits_operateUnary_not hout) hresult
    | @unary _ operand op operandType _ hnode hop hoperand htype =>
      have hself := HasType.unary hnode hop hoperand htype
      cases op with
      | not => exact absurd rfl hop
      | addrOf =>
        exact suits_addressValue (isAddress_addrOf htype) (hrun hnode)
      | deref =>
        obtain ⟨found, middle, hfound, hvalues⟩ := bind_eq_ok.mp (hrun hnode)
        obtain rfl := hself.eq_of_staticType hfound
        have hmiddle := (sound_staticType.of_ok hm hfound).1
        have helaborates := elaborates_staticType hfound
        split at hvalues
        next hfunction =>
          intro v hv
          have hv := ih hmiddle (hoperand.elaborates helaborates) hvalues v hv
          exact suits_deref_function htype hfunction hv
        next => exact suits_load_addressesOf hmiddle (helaborates.program_eq ▸ hnode) hvalues
      | neg | plus | bitNot =>
        cases htype
        obtain ⟨operands, _, hoperands, hresult⟩ :=
          evalWithin_unary hm hvalues hnode (by decide) (by decide)
        refine forall_mem_foldlM (fun v hv out hout => ?_) hresult
        exact suits_operateUnary hop (ih hm hoperand hoperands v hv) hout
    | cast hnode =>
      obtain ⟨operands, last, hoperands, hvalues⟩ := bind_eq_ok.mp (hrun hnode)
      split at hvalues
      next hvoid =>
        rw [of_decide_eq_true hvoid]
        exact fun v _ => .void v
      next =>
        obtain ⟨scalar, hscalar, hvalues⟩ := check_bind_eq_ok.mp (get_bind_eq_ok.mp hvalues)
        obtain ⟨hconverted, -⟩ := check_eq_ok.mp hvalues
        have hlast := ((sound_evalWithin state fuel _).of_ok hm hoperands).1
        intro v hv
        have hfits := fits_convert hconverted v hv
        rw [hlast.target] at hfits
        exact hfits.suits hscalar
    | sizeOf hnode =>
      obtain ⟨size, _, -, hvalues⟩ := bind_eq_ok.mp (get_bind_eq_ok.mp (hrun hnode))
      cases hvalues
      rw [hm.settings]
      exact forall_mem_singleton.mpr (suits_ofInt t .unsignedLong _)
    | index hnode harray htype =>
      have hself := HasType.index hnode harray htype
      obtain ⟨found, middle, hfound, hvalues⟩ := bind_eq_ok.mp (hrun hnode)
      obtain rfl := hself.eq_of_staticType hfound
      have hmiddle := (sound_staticType.of_ok hm hfound).1
      exact suits_load_addressesOf hmiddle ((elaborates_staticType hfound).program_eq ▸ hnode) hvalues
    | call hnode hcallee hname hfree =>
      obtain ⟨function, middle, hfunction, hvalues⟩ := bind_eq_ok.mp (hrun hnode)
      replace hfunction := get_bind_eq_ok.mp hfunction
      simp only [hcallee, lookup_eq_none_of_nameType? hfree, hname] at hfunction
      cases hfunction
      replace hvalues := get_bind_eq_ok.mp hvalues
      rw [hcallee] at hvalues
      exact ((suits_callLibrary (sound_evalWithin state fuel) state node _ _).of_ok hm hvalues).2

end Evaluation

end CoreC.Machine

namespace CoreC.Config

open Machine

section Soundness

variable {ι φ : Type} [DecidableEq ι] [BEq φ] [Domain ι φ] [Domain.Ranged ι φ] {p : Program}
  {settings : Settings}

/-- Runtime type soundness, in every domain that keeps known integers in range: whatever
configuration a run comes by, each cell holds values of its class, and a well-typed expression
whose static type is a plain number evaluates to numbers of exactly that type. -/
theorem wellTyped_evaluates_soundly {c : Config ι φ} (hoccurs : c.Occurs p settings) :
    (∀ (key : Nat) (cell : Cell ι φ), c.machine.store.cells[key]? = some cell →
      ∀ v ∈ cell.contents.items, v.Fits settings.target cell.scalar) ∧
    ∀ (state : State) (node : NodeId) (type : CType) (values : ValueSet ι φ) (typed evaluated : Machine ι φ),
      c.machine.WellTyped state.frame node →
      staticType state.frame node c.machine = .ok type typed →
      eval state node c.machine = .ok values evaluated →
      (∀ int, type = .integer int → ∀ v ∈ values.items, (∃ scalar, v = .uninitialized scalar) ∨
        ∃ data, v = .int data int ∧ Domain.Within φ settings.target int data) ∧
      ∀ kind, type = .floating kind → ∀ v ∈ values.items, (∃ scalar, v = .uninitialized scalar) ∨
        ∃ data, v = .float data kind := by
  have hm := hoccurs.typed
  constructor
  · intro key cell hcell v hv
    have hfits := (hm.store hcell).forall_mem v hv
    rwa [hm.target] at hfits
  · rintro state node found values typed evaluated ⟨type, htype⟩ hfound hvalues
    obtain rfl := htype.eq_of_staticType hfound
    obtain ⟨_, _, hget, hvalues⟩ := bind_eq_ok.mp hvalues
    cases hget
    have hsuits := htype.suits hm hvalues
    constructor
    · rintro int rfl v hv
      cases hsuits v hv with
      | uninitialized _ scalar => exact .inl ⟨scalar, rfl⟩
      | int hdata => exact .inr ⟨_, rfl, hdata⟩
      | pointer haddress | callable haddress => cases haddress
    · rintro kind rfl v hv
      cases hsuits v hv with
      | uninitialized _ scalar => exact .inl ⟨scalar, rfl⟩
      | float => exact .inr ⟨_, rfl⟩
      | pointer haddress | callable haddress => cases haddress

end Soundness

open Builder

/-- The sum of a distance in an array and of a comparison with something void. -/
def mixedSum : Program := program do
  let array ← decl "a" (CType.int.arrayOf 2) none
  let last ← unary .addrOf (← index (← id "a") (← int 1))
  let distance ← binary .sub last (← id "a")
  let void ← cast .void (← int 2)
  let test ← binary .eq void (← int 2)
  let sum ← binary .add distance test
  return [array, ← function "main" .int [] [← ret (some sum)]]

/-- Over bounded integers, the sum evaluates to values that are all of type `long`. -/
theorem mixedSum_evaluates :
    ∃ (c : Config Bounded Sign) (state : State) (values : ValueSet Bounded Sign)
      (typed evaluated : Machine Bounded Sign),
      c.Occurs mixedSum {} ∧ state ∈ c.live ∧ c.machine.WellTyped state.frame 11 ∧
      staticType state.frame 11 c.machine = .ok (.integer .long) typed ∧
      eval state 11 c.machine = .ok values evaluated ∧ values.items ≠ [] ∧
      (∀ (key : Nat) (cell : Cell Bounded Sign), c.machine.store.cells[key]? = some cell →
        ∀ v ∈ cell.contents.items, v.Fits ({} : Settings).target cell.scalar) ∧
      ∀ v ∈ values.items, (∃ scalar, v = .uninitialized scalar) ∨
        ∃ data, v = .int data .long ∧ Domain.Within Sign ({} : Settings).target .long data := by
  have hrun : (follow? mixedSum {} [] : Option (Config Bounded Sign)).any (fun c =>
      c.live.any fun state =>
        c.machine.program.construct? 1 = some (.id "a") ∧ c.machine.program.construct? 3 = some (.index 1 2) ∧
        c.machine.program.construct? 4 = some (.unary .addrOf 3) ∧
        c.machine.program.construct? 5 = some (.id "a") ∧
        c.machine.program.construct? 6 = some (.binary .sub 4 5) ∧
        c.machine.program.construct? 10 = some (.binary .eq 8 9) ∧
        c.machine.program.construct? 11 = some (.binary .add 6 10) ∧
        c.machine.namesFunction state.frame "a" = false ∧
        c.machine.nameType? state.frame "a" = some (CType.int.arrayOf 2) ∧
        (answer? (staticType state.frame 11) c.machine).map (·.1) = some (.integer .long) ∧
        (answer? (eval state 11) c.machine).any (·.1.items ≠ [])) = true := by decide +kernel
  obtain ⟨c, hfollow, hlive⟩ := (Option.any_eq_true _ _).mp hrun
  obtain ⟨state, hstate, hfacts⟩ := List.any_eq_true.mp hlive
  obtain ⟨h1, h3, h4, h5, h6, h10, h11, hname, harray, htype, heval⟩ := of_decide_eq_true hfacts
  obtain ⟨⟨type, typed⟩, htype, rfl⟩ := Option.map_eq_some_iff.mp htype
  obtain ⟨⟨values, evaluated⟩, heval, hsome⟩ := (Option.any_eq_true _ _).mp heval
  obtain ⟨live, hsubset, harises⟩ := (reachable_follow hfollow).arises
  have hdistance : HasType c.machine state.frame 6 (.integer .long) :=
    .arithmetic h6 rfl (.unary h4 (by decide) (.index h3 (.object h1 hname harray) rfl) rfl)
      (.object h5 hname harray) (by decide) (by decide) rfl
  have hsum : c.machine.WellTyped state.frame 11 :=
    ⟨_, .arithmetic h11 rfl hdistance (.comparison h10 rfl) (by decide) (by decide) rfl⟩
  obtain ⟨hcells, hvalues⟩ := wellTyped_evaluates_soundly harises.occurs
  have htype := eq_ok_of_answer? htype
  have heval := eq_ok_of_answer? heval
  exact ⟨_, state, values, typed, evaluated, harises.occurs, hsubset hstate, hsum, htype, heval,
    of_decide_eq_true hsome, hcells, (hvalues state 11 _ values typed evaluated hsum htype heval).1 _ rfl⟩

/-- The sum of a `float` and of a `double` that was cast to void. -/
def voidOperand : Program := program do
  let one ← push (.literal (.float (.ofInt 1) .float))
  let void ← cast .void (← float (.ofRatio false 1 10))
  let sum ← binary .add one void
  let test ← binary .eq sum (← float (.ofRatio false 11 10))
  return [← function "main" .int [] [← ret (some test)]]

/-- The type of the sum is `float`, and its value is a `double`. -/
theorem voidOperand_widens :
    ∃ (c : Config Int Double) (state : State) (values : ValueSet Int Double)
      (typed evaluated : Machine Int Double),
      c.Occurs voidOperand {} ∧ state ∈ c.live ∧
      staticType state.frame 3 c.machine = .ok (.floating .float) typed ∧
      eval state 3 c.machine = .ok values evaluated ∧
      ∃ v ∈ values.items, (∀ scalar, v ≠ .uninitialized scalar) ∧ ∀ data, v ≠ .float data .float := by
  have hrun : (follow? voidOperand {} [] : Option (Config Int Double)).any (fun c =>
      c.live.any fun state =>
        (answer? (staticType state.frame 3) c.machine).map (·.1) = some (.floating .float) ∧
        (answer? (eval state 3) c.machine).map (·.1.items) =
          some [.float (.ofRatio false 11 10) .double]) = true := by decide +kernel
  obtain ⟨c, hfollow, hlive⟩ := (Option.any_eq_true _ _).mp hrun
  obtain ⟨state, hstate, hfacts⟩ := List.any_eq_true.mp hlive
  obtain ⟨htype, heval⟩ := of_decide_eq_true hfacts
  obtain ⟨⟨type, typed⟩, htype, rfl⟩ := Option.map_eq_some_iff.mp htype
  obtain ⟨⟨values, evaluated⟩, heval, hvalues⟩ := Option.map_eq_some_iff.mp heval
  obtain ⟨live, hsubset, harises⟩ := (reachable_follow hfollow).arises
  refine ⟨_, state, values, typed, evaluated, harises.occurs, hsubset hstate, eq_ok_of_answer? htype,
    eq_ok_of_answer? heval, .float (.ofRatio false 11 10) .double, ?_, ?_, ?_⟩
  · rw [hvalues]
    exact List.mem_singleton_self _
  · rintro scalar ⟨⟩
  · rintro data ⟨⟩

end CoreC.Config
