import CoreC.Proofs.Faults

/-! # Rules for evaluation

Operations of the machine are put together from a few: looking at the machine, working on
memory, printing. Rules say what is known of the machine, of value sets and of lists of places,
and that each of these few keeps to it. Rules for evaluation also say what names may be
resolved; then all of evaluation keeps to them.
-/

namespace CoreC.Machine

open Construct Store Machine Value List

variable {args : List NodeId} {ι φ α β : Type} {result : Except Fault α} {m m' : Machine ι φ}

theorem check_eq_ok {a : α} : check result m = .ok a m' ↔ result = .ok a ∧ m = m' := by
  cases result with
  | ok b =>
    refine ⟨fun hrun => ?_, ?_⟩
    · cases hrun
      exact ⟨rfl, rfl⟩
    · rintro ⟨hb, rfl⟩
      cases hb
      rfl
  | error fault =>
    refine ⟨fun hrun => ?_, fun hrun => ?_⟩
    · cases hrun
    · cases hrun.1

theorem check_bind_eq_ok {next : α → MachineM ι φ β} {b : β} :
    (check result >>= next) m = .ok b m' ↔ ∃ a, result = .ok a ∧ next a m = .ok b m' := by
  simp only [bind_eq_ok, check_eq_ok]
  exact ⟨fun ⟨a, _, ⟨ha, rfl⟩, hb⟩ => ⟨a, ha, hb⟩, fun ⟨a, ha, hb⟩ => ⟨a, _, ⟨ha, rfl⟩, hb⟩⟩

theorem leaves_onStore (act : StoreM ι φ α) (m : Machine ι φ) :
    leaves (onStore act) m = { m with store := leaves act m.store } := by
  unfold leaves onStore
  cases act m.store <;> rfl

theorem exists_of_onStore_ok {act : StoreM ι φ α} {a : α}
    (hrun : onStore act m = .ok a m') : ∃ store, act m.store = .ok a store ∧ m' = { m with store } := by
  unfold onStore at hrun
  split at hrun <;> cases hrun
  next store hstore => exact ⟨store, hstore, rfl⟩

section Secures

variable {I P : Machine ι φ → Prop} {R : Machine ι φ → Machine ι φ → Prop} {Q : α → Machine ι φ → Prop}

theorem secures_onStore {act : StoreM ι φ α}
    (hact : ∀ m, I m → P m → I { m with store := leaves act m.store } ∧ R m { m with store := leaves act m.store } ∧
      ∀ a store, act m.store = .ok a store → Q a { m with store }) : Secures I R P (onStore act) Q := by
  intro m hm hPm
  obtain ⟨hI, hR, hQ⟩ := hact m hm hPm
  rw [leaves_onStore]
  refine ⟨hI, hR, fun a m' hrun => ?_⟩
  obtain ⟨store, hstore, rfl⟩ := exists_of_onStore_ok hrun
  exact hQ a store hstore

theorem secures_onEnv (hR : Evolution R) {act : Environment → Except Fault (α × Environment)}
    (hact : ∀ m a env, I m → P m → act m.env = .ok (a, env) → I { m with env } ∧
      R m { m with env } ∧ Q a { m with env }) :
    Secures I R P (onEnv act) Q := by
  intro m hm hPm
  unfold leaves onEnv
  cases hrun : act m.env with
  | ok result =>
    obtain ⟨hI, hstep, hQ⟩ := hact m result.1 result.2 hm hPm hrun
    refine ⟨hI, hstep, fun _ _ hout => ?_⟩
    cases hout
    exact hQ
  | error fault => exact ⟨hm, hR.refl m, fun _ _ hout => nomatch hout⟩

end Secures

variable {construct : Construct}

theorem constructAt_eq_ok {id : NodeId} :
    constructAt id m = .ok construct m' ↔ m.program.construct? id = some construct ∧ m = m' := by
  unfold constructAt
  rw [bind_eq_ok]
  cases hfound : m.program.construct? id with
  | none =>
    constructor
    · rintro ⟨_, _, hget, hthrow⟩
      cases hget
      rw [hfound] at hthrow
      cases hthrow
    · rintro ⟨hnone, -⟩
      cases hnone
  | some found =>
    constructor
    · rintro ⟨_, _, hget, hreturn⟩
      cases hget
      rw [hfound] at hreturn
      cases hreturn
      exact ⟨rfl, rfl⟩
    · rintro ⟨hsame, rfl⟩
      cases hsame
      exact ⟨m, m, rfl, by rw [hfound]; rfl⟩

variable [DecidableEq ι] [BEq φ] [Domain ι φ]

/-- What is to be known of operations, and that those keep to it which others are put together
from. Unless said otherwise, nothing is known of machines, values and places. -/
structure Rules (ι φ : Type) [DecidableEq ι] [BEq φ] [Domain ι φ] where
  /-- The operation keeps to the rules, and its results meet the condition. -/
  Obeys : {α : Type} → (α → Prop) → MachineM ι φ α → Prop
  /-- What faults may come of an operation. -/
  Allowed : Fault → Prop := fun _ => True
  /-- What machines are met. -/
  Meets : Machine ι φ → Prop := fun _ => True
  Values : ValueSet ι φ → Prop := fun _ => True
  Places : List Address → Prop := fun _ => True
  /-- What is asked of operations on memory. -/
  Stores : {α : Type} → StoreM ι φ α → Prop := fun _ => True
  /-- What functions are called. -/
  Calls : NodeId → Prop := fun _ => True
  admits : Domain.Admits ι φ Allowed := by exact Domain.admits_all _ _
  pure : ∀ {α : Type} {Q : α → Prop} {a : α}, Q a → Obeys Q (Pure.pure a)
  throw : ∀ {α : Type} {Q : α → Prop} {fault : Fault}, Allowed fault →
    Obeys Q (MonadExcept.throw fault)
  bind : ∀ {α β : Type} {P : β → Prop} {Q : α → Prop} {act : MachineM ι φ β}
    {next : β → MachineM ι φ α}, Obeys P act → (∀ b, P b → Obeys Q (next b)) → Obeys Q (act >>= next)
  /-- An operation may look at the machine, as long as it does not look at the continuations. -/
  view : ∀ {α : Type} {Q : α → Prop} {next : Machine ι φ → MachineM ι φ α},
    (∀ {m konts}, next { m with konts } = next m) →
    (∀ m, Meets m → Obeys Q (next m)) → Obeys Q (MonadState.get >>= next)
  onStore : ∀ {α : Type} {act : StoreM ι φ α}, Stores act → Throws Allowed act →
    Obeys (fun _ => True) (onStore act)
  note : ∀ (node : NodeId) (address : Address), Obeys (fun _ => True)
    (modify fun m => { m with literals := m.literals.insert node address })
  print : ∀ (printed : String) (thread : ThreadId) (call : NodeId), Obeys (fun _ => True)
    (modify fun m => { m with output := m.output.print printed thread (m.program.location call) })
  threads : ∀ n : Nat, Obeys (fun _ => True) (onTeams fun teams => (PUnit.unit, teams.setNumThreads n))
  calls : ∀ {m : Machine ι φ} {name : String} {function : NodeId}, Meets m →
    m.outline.function? name = some function → Calls function := by intros; trivial
  literal : ∀ (node : NodeId) (text : List UInt8), Stores (literal node text) := by
    intros; exact True.intro
  malloc : ∀ {m : Machine ι φ} (call : NodeId) (size : Nat), Meets m →
    Stores (malloc call (m.blockLayout call size)) := by intros; trivial
  free : ∀ address, Stores (free address) := by intros; trivial
  single : ∀ v, Values (.singleton v) := by intros; trivial
  place : ∀ address, Places [address] := by intros; trivial
  read : ∀ {m : Machine ι φ} {scalar : Scalar} {places : List Address} {values : ValueSet ι φ},
    Meets m → Places places → places.foldlM (fun values address =>
      (m.store.read address scalar).map values.union) .empty = .ok values → Values values := by
    intros; exact True.intro
  operate : ∀ {lefts rights out : ValueSet ι φ} {target : Target} {op : BinOp}, Values lefts →
    Values rights → lefts.lift₂ rights (operate target op) = .ok out → Values out := by
    intros; exact True.intro
  unary : ∀ {values out : ValueSet ι φ} {target : Target} {op : UnOp}, Values values →
    values.flatMap (operateUnary target op) = .ok out → Values out := by
    intros; exact True.intro
  convert : ∀ {m : Machine ι φ} {scalar : Scalar} {values out : ValueSet ι φ}, Meets m →
    Values values → m.store.convert scalar values = .ok out → Values out := by
    intros; exact True.intro
  targets : ∀ {values : ValueSet ι φ} {places : List Address}, Values values →
    values.items.mapM target = .ok places → Places places := by
    intros; exact True.intro
  indexed : ∀ {m : Machine ι φ} {size : Nat} {bases indices : ValueSet ι φ} {places : List Address},
    Values bases → Values indices → m.indexedAddresses size bases.items indices.items = .ok places →
    Places places := by
    intros; exact True.intro
  pointers : ∀ {places : List Address} (step : Nat), Places places →
    Values (.ofList (places.map (.pointer · step))) := by
    intros; exact True.intro

variable {f : β → MachineM ι φ PUnit}

namespace Rules

variable (r : Rules ι φ) {P : β → Prop} {Q : α → Prop}

/-- The operation keeps to the rules, whatever comes of it. -/
abbrev Permits (act : MachineM ι φ α) : Prop := r.Obeys (fun _ => True) act

theorem covers : Fault.Covers r.Allowed := r.admits.covers

theorem refuse {fault : Fault} (hfault : fault.isOrdinary = true) :
    r.Obeys Q (MonadExcept.throw fault) := r.throw (r.covers fault hfault)

theorem weaken {R : α → Prop} {act : MachineM ι φ α} (hact : r.Obeys Q act) (hR : ∀ a, Q a → R a) :
    r.Obeys R act := by
  rw [← bind_pure act]
  exact r.bind hact fun a ha => r.pure (hR a ha)

section

variable (hraises : Raises r.Allowed result)

include hraises

theorem check (hresult : ∀ a, result = .ok a → Q a) : r.Obeys Q (Machine.check result) := by
  cases result with
  | ok a => exact r.pure (hresult a rfl)
  | error fault => exact r.throw (hraises fault rfl)

theorem noted :
    r.Obeys (fun a => result = .ok a) (Machine.check result) := r.check hraises fun _ ha => ha

theorem checked : r.Permits (Machine.check result) := r.check hraises fun _ _ => trivial

end

theorem done (a : α) : r.Permits (Pure.pure a) := r.pure trivial

theorem ite {c : Prop} [Decidable c] {yes no : MachineM ι φ α} (hyes : r.Obeys Q yes)
    (hno : r.Obeys Q no) : r.Obeys Q (if c then yes else no) := by
  split
  · exact hyes
  · exact hno

variable (items : List β)

theorem forM (hf : ∀ b ∈ items, r.Permits (f b)) : r.Permits (items.forM f) := by
  induction items with
  | nil => exact r.done _
  | cons b rest ih =>
    obtain ⟨hfirst, hrest⟩ := forall_mem_cons.mp hf
    exact r.bind hfirst fun _ _ => ih hrest

theorem mapM {f : β → MachineM ι φ α} (hf : ∀ b ∈ items, r.Obeys Q (f b)) :
    r.Obeys (fun out => out.length = items.length ∧ ∀ a ∈ out, Q a) (items.mapM f) := by
  rw [← mapM'_eq_mapM]
  induction items with
  | nil => exact r.pure (by simp)
  | cons b rest ih =>
    obtain ⟨hfirst, hrest⟩ := forall_mem_cons.mp hf
    refine r.bind hfirst fun a ha => r.bind (ih hrest) fun out hout => r.pure ?_
    exact ⟨congrArg (· + 1) hout.1, forall_mem_cons.mpr ⟨ha, hout.2⟩⟩

theorem forEach (hf : ∀ b, r.Permits (f b)) : r.Permits (items.forM f) :=
  r.forM items fun b _ => hf b

theorem foldEach {f : α → β → MachineM ι φ α} (start : α) (hf : ∀ a b, r.Permits (f a b)) :
    r.Permits (items.foldlM f start) := by
  induction items generalizing start with
  | nil => exact r.done start
  | cons b rest ih => exact r.bind (hf start b) fun a _ => ih a

/-- The construct is the one at the node, in some machine that was met. -/
def Shows (node : NodeId) (construct : Construct) : Prop :=
  ∃ m, r.Meets m ∧ m.program.construct? node = some construct

theorem constructAt (node : NodeId) : r.Obeys (r.Shows node) (constructAt node) := by
  refine r.view rfl fun m hm => ?_
  split
  next construct hconstruct => exact r.pure ⟨m, hm, hconstruct⟩
  next => exact r.refuse rfl

/-! ## Memory -/

theorem load {places : List Address} (type : CType) (hplaces : r.Places places) :
    r.Obeys r.Values (load places type) := by
  refine r.view rfl fun m hm => r.ite ?_ (r.ite (r.refuse rfl) ?_)
  · refine r.bind (r.checked (m.layouts.raises_sizeOf r.covers _)) fun step _ => ?_
    exact r.pure (r.pointers step hplaces)
  · refine r.bind (r.checked (m.layouts.raises_scalar r.covers _)) fun scalar _ => ?_
    refine r.check (.foldlM _ _ fun _ address => ?_) fun values hvalues => r.read hm hplaces hvalues
    exact (m.store.raises_read r.admits address scalar).map _

theorem literalAddress (node : NodeId) (text : String) : r.Permits (literalAddress node text) := by
  refine r.view rfl fun m _ => ?_
  split
  · exact r.done _
  · refine r.bind (r.onStore (r.literal node _) (throws_literal r.admits node _)) fun address _ => ?_
    exact r.bind (r.note node address) fun _ _ => r.done _

theorem allocateBlock (hclear : ∀ base, r.Stores (zeroFill base)) (call : NodeId) (size : Nat) (zeroed : Bool) :
    r.Obeys r.Values (allocateBlock call size zeroed) := by
  refine r.ite (r.pure (r.single _)) (r.view rfl fun m hm => ?_)
  refine r.bind (r.onStore (r.malloc call size hm) (throws_malloc r.covers call _)) fun address _ => ?_
  refine r.ite (r.bind (r.onStore (hclear _) (throws_zeroFill r.admits _)) fun _ _ => ?_) ?_
  · exact r.pure (r.single _)
  · exact r.pure (r.single _)

theorem freeValue (v : Value ι φ) : r.Permits (freeValue v) := by
  cases v with
  | pointer address size => exact r.onStore (r.free address) (throws_free r.covers address)
  | int data type =>
    refine r.bind (r.checked (raises_exactInt r.covers _)) fun n _ => ?_
    exact r.ite (r.done _) (r.refuse rfl)
  | float | function | uninitialized => exact r.refuse rfl

theorem intValue (n : Int) : r.Obeys r.Values (intValue n) :=
  r.view rfl fun _ _ => r.pure (r.single _)

theorem literalValue (node : NodeId) (value : Literal) : r.Obeys r.Values (literalValue node value) := by
  refine r.view rfl fun m _ => ?_
  cases value with
  | str text => exact r.bind (r.literalAddress node text) fun _ _ => r.pure (r.single _)
  | int | char | float => exact r.pure (r.single _)

end Rules

/-- Rules for evaluation: of the names, those may be resolved that stand in what is evaluated. -/
structure EvalRules (ι φ : Type) [DecidableEq ι] [BEq φ] [Domain ι φ] extends Rules ι φ where
  /-- What nodes may be evaluated from a frame. -/
  Allows : FrameId → NodeId → Prop
  child : ∀ {m : Machine ι φ} {frame : FrameId} {node child : NodeId} {construct : Construct}, Meets m →
    Allows frame node → m.program.construct? node = some construct → child ∈ construct.children →
    Allows frame child
  blocks : ∀ (call : NodeId) (size : Nat) (zeroed : Bool), Obeys Values (allocateBlock call size zeroed)
  resolve : ∀ {m : Machine ι φ} {node : NodeId} {name : String} (frame : FrameId), Meets m →
    Allows frame node → m.program.construct? node = some (.id name) →
    Obeys (fun _ => True) (resolveName frame name)
  undetermined : ∀ {m m' : Machine ι φ} {frame : FrameId} {call callee : NodeId} {args : List NodeId}
    (target : Target), Meets m → Meets m' → Allows frame call →
    m.program.construct? call = some (.call callee args) →
    m'.program.construct? callee = some (.id "__VERIFIER_nondet_int") →
    Values (.ofList ([0, 1, 2].map (ofInt target .int))) := by
    intros; exact True.intro

namespace EvalRules

variable {d : EvalRules ι φ} {frame : FrameId}

theorem allows_child {node child : NodeId}
    (hshows : d.Shows node construct) (hnode : d.Allows frame node)
    (hchild : child ∈ construct.children) : d.Allows frame child := by
  obtain ⟨m, hm, hconstruct⟩ := hshows
  exact d.child hm hnode hconstruct hchild

/-! ## Types -/

section Types

variable {typeOf : NodeId → MachineM ι φ CType} {node : NodeId}

section

variable (htype : ∀ node, d.Allows frame node → d.Permits (typeOf node))

include htype

theorem callType (hnode : d.Allows frame node) : d.Permits (callType typeOf frame node) := by
  refine d.view rfl fun m _ => ?_
  dsimp only
  split
  case' h_1 =>
    refine d.ite ?_ ?_
    case' refine_2 =>
      split
      · refine d.view rfl fun m _ => ?_
        split
        · exact d.done _
        · exact d.refuse rfl
      · exact d.done _
  all_goals exact d.bind (htype node hnode) fun type _ => d.ite (d.done _) (d.refuse rfl)

theorem typeOfConstruct (hnode : d.Allows frame node) (hshows : d.Shows node construct) :
    d.Permits (typeOfConstruct typeOf frame construct) := by
  have hbelow (child : NodeId) (hchild : child ∈ construct.children) :
      d.Permits (typeOf child) := htype child (allows_child hshows hnode hchild)
  cases construct with
  | literal | cast | sizeOf => exact d.done _
  | id name =>
    obtain ⟨seen, hseen, hconstruct⟩ := hshows
    refine d.view rfl fun m _ => d.ite (d.done _) ?_
    exact d.bind (d.resolve frame hseen hnode hconstruct) fun _ _ => d.done _
  | binary op left right =>
    refine d.bind (hbelow left (by simp [children])) fun _ _ => ?_
    refine d.bind (hbelow right (by simp [children])) fun _ _ => ?_
    exact d.checked (op.raises_resultType d.covers _ _)
  | unary op operand =>
    refine d.bind (hbelow operand (by simp [children])) fun _ _ => ?_
    exact d.checked (op.raises_resultType d.covers _)
  | index array position =>
    refine d.bind (hbelow array (by simp [children])) fun type _ => ?_
    split
    · exact d.done _
    · exact d.refuse rfl
  | call callee args =>
    exact callType htype (allows_child hshows hnode (by simp [children]))
  | _ => exact d.refuse rfl

end

theorem typeWithin (fuel : Nat) (hnode : d.Allows frame node) :
    d.Permits (typeWithin frame fuel node) := by
  induction fuel generalizing node with
  | zero => exact d.refuse rfl
  | succ fuel ih =>
    refine d.bind (d.constructAt node) fun construct hshows => ?_
    exact typeOfConstruct (fun node hnode => ih hnode) hnode hshows

theorem staticType (hnode : d.Allows frame node) : d.Permits (staticType frame node) :=
  d.view rfl fun m _ => typeWithin m.depth hnode

end Types

/-! ## Values and places -/

section Nested

variable {eval : NodeId → MachineM ι φ (ValueSet ι φ)}
  {addresses : NodeId → MachineM ι φ (List Address)} {state : State} {node : NodeId}
  {construct : Construct}

theorem printCall (call : NodeId) (hargs : ∀ arg ∈ args, d.Obeys d.Values (eval arg)) :
    d.Obeys d.Values (print eval state call args) := by
  cases args with
  | nil => exact d.refuse rfl
  | cons format args =>
    refine d.view rfl fun m _ => ?_
    split
    · refine d.bind (d.mapM args (forall_mem_cons.mp hargs).2) fun values _ => ?_
      refine d.view rfl fun m _ => ?_
      refine d.bind (d.checked (m.store.raises_format d.admits _ _)) fun printed _ => ?_
      exact d.bind (d.print printed _ call) fun _ _ => d.intValue _
    · exact d.refuse rfl

theorem callLibrary {call callee : NodeId} {name : String}
    (hargs : ∀ arg ∈ args, d.Obeys d.Values (eval arg)) (hcall : d.Allows state.frame call)
    (hshows : d.Shows call (.call callee args)) (hcallee : d.Shows callee (.id name)) :
    d.Obeys d.Values (callLibrary eval state call name args) := by
  have hcount (values : ValueSet ι φ) : d.Permits (Machine.check (countOf name values)) :=
    d.checked (raises_countOf d.covers name values)
  unfold Machine.callLibrary
  split
  · exact printCall call hargs
  · refine d.bind (hargs _ (by simp)) fun values _ => d.bind (hcount values) fun bytes _ => ?_
    exact d.blocks call bytes false
  · refine d.bind (hargs _ (by simp)) fun values _ => d.bind (hcount values) fun elements _ => ?_
    refine d.bind (hargs _ (by simp)) fun values _ => d.bind (hcount values) fun bytes _ => ?_
    exact d.blocks call (elements * bytes) true
  · refine d.bind (hargs _ (by simp)) fun values _ => ?_
    exact d.bind (d.forEach _ d.freeValue) fun _ _ => d.intValue 0
  · refine d.view rfl fun m _ => d.pure ?_
    obtain ⟨seen, hseen, hconstruct⟩ := hshows
    obtain ⟨seen', hseen', hcallee⟩ := hcallee
    exact d.undetermined _ hseen hseen' hcall hconstruct hcallee
  · exact d.view rfl fun m _ => d.intValue _
  · exact d.view rfl fun m _ => d.intValue _
  · refine d.bind (hargs _ (by simp)) fun values _ => d.bind (hcount values) fun n _ => ?_
    exact d.bind (d.threads n) fun _ _ => d.intValue 0
  all_goals exact d.refuse rfl

variable (heval : ∀ node, d.Allows state.frame node → d.Obeys d.Values (eval node))
  (haddresses : ∀ node, d.Allows state.frame node → d.Obeys d.Places (addresses node))
  (hnode : d.Allows state.frame node)

include heval hnode

theorem userFunction :
    d.Obeys (fun function => ∀ id ∈ function, d.Calls id) (userFunction eval state.frame node) := by
  refine d.view rfl fun m hm => ?_
  dsimp only
  split
  case' h_1 => refine d.ite (d.pure fun id hid => d.calls hm hid) ?_
  -- Both ways left over go through the value of the callee.
  all_goals
    refine d.bind (heval node hnode) fun values _ => ?_
    refine d.bind (d.checked (raises_calleeName d.covers _)) fun name _ =>
      d.view rfl fun m hm => ?_
    split
    next function hfunction =>
      refine d.pure fun id hid => ?_
      cases hid
      exact d.calls hm hfunction
    next => exact d.refuse rfl

include haddresses

theorem addressesOf (hshows : d.Shows node construct) :
    d.Obeys d.Places (addressesOf eval addresses state node construct) := by
  have hbelow (child : NodeId) (hchild : child ∈ construct.children) : d.Obeys d.Values (eval child) :=
    heval child (allows_child hshows hnode hchild)
  cases construct with
  | id name =>
    obtain ⟨seen, hseen, hconstruct⟩ := hshows
    exact d.bind (d.resolve _ hseen hnode hconstruct) fun _ _ => d.pure (d.place _)
  | unary op operand =>
    cases op with
    | deref =>
      refine d.bind (hbelow operand (by simp [children])) fun values hvalues => ?_
      exact d.check (.mapM _ (raises_target d.covers)) fun places hplaces => d.targets hvalues hplaces
    | _ => exact d.refuse rfl
  | index array position =>
    refine d.bind (staticType hnode) fun element _ => d.view rfl fun m _ => ?_
    refine d.bind (d.checked (m.layouts.raises_sizeOf d.covers _)) fun size _ => ?_
    refine d.bind (hbelow array (by simp [children])) fun bases hbases => ?_
    refine d.bind (hbelow position (by simp [children])) fun indices hindices => ?_
    refine d.view rfl fun m _ => ?_
    refine d.check (m.raises_indexedAddresses d.covers _ _ _) fun places hplaces => ?_
    exact d.indexed hbases hindices hplaces
  | cast type operand =>
    exact haddresses operand (allows_child hshows hnode (by simp [children]))
  | literal value =>
    cases value with
    | str text => exact d.bind (d.literalAddress node text) fun _ _ => d.pure (d.place _)
    | _ => exact d.refuse rfl
  | _ => exact d.refuse rfl

theorem addressValue : d.Obeys d.Values (addressValue eval addresses state node) := by
  refine d.view rfl fun m _ => d.ite (heval node hnode) ?_
  refine d.bind (staticType hnode) fun type _ => d.view rfl fun m _ => ?_
  refine d.bind (d.checked (m.layouts.raises_step d.covers _)) fun step _ => ?_
  exact d.bind (haddresses node hnode) fun places hplaces => d.pure (d.pointers step hplaces)

theorem valuesOf (hshows : d.Shows node construct) :
    d.Obeys d.Values (valuesOf eval addresses state node construct) := by
  have hbelow (child : NodeId) (hchild : child ∈ construct.children) : d.Obeys d.Values (eval child) :=
    heval child (allows_child hshows hnode hchild)
  cases construct with
  | literal value => exact d.literalValue node value
  | id name =>
    obtain ⟨seen, hseen, hconstruct⟩ := hshows
    refine d.view rfl fun m _ => d.ite (d.pure (d.single _)) ?_
    exact d.bind (d.resolve _ hseen hnode hconstruct) fun binding _ => d.load _ (d.place _)
  | binary op left right =>
    refine d.bind (hbelow left (by simp [children])) fun lefts hlefts => ?_
    refine d.bind (hbelow right (by simp [children])) fun rights hrights => ?_
    refine d.view rfl fun m _ => d.check ?_ fun out hout => d.operate hlefts hrights hout
    exact lefts.raises_flatMap fun left => rights.raises_flatMap (raises_operate d.admits _ op left)
  | unary op operand =>
    have hplaces := addressesOf heval haddresses hnode hshows
    have hoperand : d.Allows state.frame operand := allows_child hshows hnode (by simp [children])
    cases op with
    | addrOf => exact addressValue heval haddresses hoperand
    | deref =>
      refine d.bind (staticType hnode) fun type _ => d.ite (heval operand hoperand) ?_
      exact d.bind hplaces fun places hplaces => d.load type hplaces
    | _ =>
      refine d.bind (heval operand hoperand) fun values hvalues => d.view rfl fun m _ => ?_
      refine d.check ?_ fun out hout => d.unary hvalues hout
      exact values.raises_flatMap (raises_operateUnary d.admits _ _)
  | cast type operand =>
    refine d.bind (hbelow operand (by simp [children])) fun values hvalues => ?_
    refine d.ite (d.pure hvalues) (d.view rfl fun m hm => ?_)
    refine d.bind (d.checked (m.layouts.raises_scalar d.covers _)) fun scalar _ => ?_
    exact d.check (m.store.raises_convert d.admits _ _) fun out hout => d.convert hm hvalues hout
  | sizeOf type =>
    refine d.view rfl fun m _ => ?_
    refine d.bind (d.checked (m.layouts.raises_sizeOf d.covers _)) fun size _ => ?_
    exact d.pure (d.single _)
  | index array position =>
    have hplaces := addressesOf heval haddresses hnode hshows
    refine d.bind (staticType hnode) fun type _ => ?_
    exact d.bind hplaces fun places hplaces => d.load type hplaces
  | call callee args =>
    have hcallee : d.Allows state.frame callee := allows_child hshows hnode (by simp [children])
    refine d.bind (userFunction heval hcallee) fun function _ => ?_
    cases function with
    | some function => exact d.view rfl fun m _ => d.refuse rfl
    | none =>
      refine d.view rfl fun m hm => ?_
      split
      next name hname =>
        refine callLibrary (fun arg harg => ?_) hnode hshows ⟨m, hm, hname⟩
        exact hbelow arg (by simp [children, harg])
      next => exact d.refuse rfl
  | _ => exact d.refuse rfl

end Nested

/-! ## Evaluation -/

theorem within (state : State) (fuel : Nat) : ∀ node, d.Allows state.frame node →
    d.Obeys d.Values (evalWithin state fuel node) ∧
      d.Obeys d.Places (addressesWithin state fuel node) := by
  induction fuel with
  | zero => exact fun node _ => ⟨d.refuse rfl, d.refuse rfl⟩
  | succ fuel ih =>
    intro node hnode
    have heval (node : NodeId) (hnode : d.Allows state.frame node) := (ih node hnode).1
    have haddresses (node : NodeId) (hnode : d.Allows state.frame node) := (ih node hnode).2
    constructor
    · refine d.bind (d.constructAt node) fun construct hshows => ?_
      exact valuesOf heval haddresses hnode hshows
    · refine d.bind (d.constructAt node) fun construct hshows => ?_
      exact addressesOf heval haddresses hnode hshows

theorem eval (state : State) {node : NodeId} (hnode : d.Allows state.frame node) :
    d.Obeys d.Values (Machine.eval state node) :=
  d.view rfl fun m _ => (within state m.depth node hnode).1

theorem addresses (state : State) {node : NodeId} (hnode : d.Allows state.frame node) :
    d.Obeys d.Places (Machine.addresses state node) :=
  d.view rfl fun m _ => (within state m.depth node hnode).2

end EvalRules

end CoreC.Machine
