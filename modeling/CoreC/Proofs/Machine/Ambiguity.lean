import CoreC.Proofs.Machine.Moving
import CoreC.Proofs.Machine.MutualExclusion
import CoreC.Proofs.Memory.Accumulation

/-! # Assignments to several places

An assignment whose left side stands for more than one place writes weakly to each of them, so
that every cell keeps the values it may have held, and the assigned values join them. That is so
for scalars. Aggregates are copied unit by unit with ordinary writes: they keep what they held
only where writes are weak for another reason, by the policy or because the object is a summary.
-/

namespace CoreC

open Option Store KontTable

variable {type : CType} {states : List State}

theorem KontTable.exists_mem_read_write (t : KontTable) (address : KontAddress)
    (kont : Continuation) (merge : Bool) :
    ∃ konts, (t.write address kont merge).read address = .ok konts ∧ kont ∈ konts := by
  unfold read write
  rw [Std.TreeMap.getElem?_insert_self]
  refine ⟨_, rfl, ?_⟩
  generalize (if merge then t.slots.getD address [] else []) = held
  by_cases hmem : kont ∈ held
  · rwa [if_pos hmem]
  · rw [if_neg hmem]
    exact List.mem_concat_self

namespace Machine

variable {ι φ α : Type} {m m' : Machine ι φ}

/-- A continuation is found again where it was pushed. -/
theorem exists_of_descend_ok {state : State} {expr : NodeId} {kind : KontKind}
    (hrun : descend state expr kind m = .ok states m') :
    ∃ kont konts, states = [⟨.expr expr, state.frame, kont, state.thread, none⟩] ∧
      m'.konts.read kont = .ok konts ∧ ⟨kind, state.control, state.frame, state.kont⟩ ∈ konts := by
  obtain ⟨kont, pushed, hpush, hpure⟩ := bind_eq_ok.mp hrun
  cases hpure
  cases hpush
  obtain ⟨konts, hread, hmem⟩ := exists_mem_read_write m.konts
    (m.allocator.allocate ⟨kind, state.control, state.frame, state.kont⟩ state.thread).1
    ⟨kind, state.control, state.frame, state.kont⟩
    (m.allocator.allocate ⟨kind, state.control, state.frame, state.kont⟩ state.thread).2.merges
  exact ⟨_, konts, rfl, hread, hmem⟩

/-- The machines differ in memory only, whose cells keep every initialized value. -/
def Accumulates (m m' : Machine ι φ) : Prop := ∃ store, m' = { m with store } ∧ m.store.Retains store

namespace Accumulates

variable {m₀ m middle m' : Machine ι φ}

theorem refl (m : Machine ι φ) : m.Accumulates m := ⟨m.store, rfl, .refl m.store⟩

theorem trans (hfirst : m.Accumulates middle) (hsecond : middle.Accumulates m') :
    m.Accumulates m' := by
  obtain ⟨store, rfl, hretains⟩ := hfirst
  obtain ⟨store', rfl, hretains'⟩ := hsecond
  exact ⟨store', rfl, hretains.trans hretains'⟩

theorem retains (haccumulates : m.Accumulates m') : m.store.Retains m'.store := by
  obtain ⟨store, rfl, hretains⟩ := haccumulates
  exact hretains

/-- What each of some actions brings about holds after all of them, if memory that only gains
values keeps it. -/
theorem forM {f : α → MachineM ι φ PUnit} (Brings : α → Store ι φ → Prop)
    (hstable : ∀ {a s s'}, s.Retains s' → Brings a s → Brings a s') {items : List α}
    (hf : ∀ a ∈ items, ∀ {m m'}, m₀.Accumulates m → f a m = .ok ⟨⟩ m' →
      m.Accumulates m' ∧ Brings a m'.store)
    (hm : m₀.Accumulates m) (hrun : items.forM f m = .ok ⟨⟩ m') :
    m.Accumulates m' ∧ ∀ a ∈ items, Brings a m'.store := by
  induction items generalizing m with
  | nil =>
    cases hrun
    exact ⟨.refl m', by simp⟩
  | cons a rest ih =>
    obtain ⟨⟨⟩, middle, hfirst, hrest⟩ := bind_eq_ok.mp hrun
    obtain ⟨hstep, hbrought⟩ := hf a List.mem_cons_self hm hfirst
    obtain ⟨hlater, hothers⟩ := ih (fun b hb => hf b (List.mem_cons_of_mem a hb)) (hm.trans hstep) hrest
    refine ⟨hstep.trans hlater, ?_⟩
    intro b hb
    rcases List.mem_cons.mp hb with rfl | hmem
    · exact hstable hlater.retains hbrought
    · exact hothers b hmem

end Accumulates

section

variable [DecidableEq ι] [BEq φ]

/-- Every unit of the object at `dest` offers what the unit of the object at `source` may hold. -/
def Received (before : Machine ι φ) (type : CType) (source dest : Address) (s : Store ι φ) : Prop :=
  ∃ layout, before.layouts.layout type = .ok layout ∧ ∀ entry ∈ placed layout.flatten 0,
    ∀ v, v.isInitialized = true → before.store.MayHold (source.shift entry.2) entry.1.scalar v →
      s.Offers (dest.shift entry.2) entry.1.scalar (retag entry.1.scalar v)

theorem Received.retained {before : Machine ι φ} {source dest : Address} {s s' : Store ι φ}
    (hreceived : before.Received type source dest s) (hretains : s.Retains s') :
    before.Received type source dest s' := by
  obtain ⟨layout, hlayout, hunits⟩ := hreceived
  refine ⟨layout, hlayout, ?_⟩
  intro entry hentry v hinit hv
  refine (hunits entry hentry v hinit hv).retained hretains ?_
  rw [isInitialized_retag, hinit]

/-- What a store held before it gained values is received as well. -/
theorem Received.of_accumulates {before now : Machine ι φ} {source dest : Address} {s : Store ι φ}
    (hnow : before.Accumulates now) (hreceived : now.Received type source dest s) :
    before.Received type source dest s := by
  have hretains := hnow.retains
  obtain ⟨store, rfl, -⟩ := hnow
  obtain ⟨layout, hlayout, hunits⟩ := hreceived
  exact ⟨layout, hlayout, fun entry hentry v hinit hv =>
    hunits entry hentry v hinit (hv.retained hretains hinit)⟩

end

variable [DecidableEq ι] [BEq φ] [Domain ι φ] [PartialEquivBEq φ] {dest : List Address}

/-- Assigning to several places keeps what every cell held and adds the converted values. -/
theorem assignAll_accumulates (hseveral : 1 < dest.length) {scalar : Scalar}
    {values : ValueSet ι φ} (hrun : assignAll dest scalar values m = .ok ⟨⟩ m') :
    m.store.Retains m'.store ∧ ∃ converted, m.store.convert scalar values = .ok converted ∧
      ∀ address ∈ dest, ∀ v ∈ converted.items, v.isInitialized = true →
        m'.store.Offers address scalar v := by
  have hassign := get_bind_eq_ok.mp hrun
  obtain ⟨converted, hconvert, hwrites⟩ := check_bind_eq_ok.mp hassign
  have hweak : decide (1 < dest.length) = true := by simpa using hseveral
  obtain ⟨haccumulates, hadded⟩ := Accumulates.forM
    (fun address s => ∀ v ∈ converted.items, v.isInitialized = true → s.Offers address scalar v)
    (fun hretains hbrings v hv hinit => (hbrings v hv hinit).retained hretains hinit)
    (fun address _ {m m'} _ hwrite => by
      obtain ⟨store, hstore, rfl⟩ := exists_of_onStore_ok hwrite
      exact ⟨⟨store, rfl, retains_write (.inl hweak) hstore⟩,
        fun v hv _ => offers_write (.inl hweak) hstore hv⟩)
    (.refl m) hwrites
  exact ⟨haccumulates.retains, converted, hconvert, hadded⟩

/-- Copying to a weak object keeps what every cell held and adds what the source may hold. -/
theorem copyObject_accumulates {source dest : Address} (hweak : m.store.Weak dest.base)
    (hrun : copyObject source dest type m = .ok ⟨⟩ m') :
    m.Accumulates m' ∧ m.Received type source dest m'.store := by
  have hchecked := get_bind_eq_ok.mp hrun
  obtain ⟨layout, hlayout, honStore⟩ := check_bind_eq_ok.mp hchecked
  obtain ⟨store, hcopy, rfl⟩ := exists_of_onStore_ok honStore
  obtain ⟨hretains, hadded⟩ := accumulates_copyUnits hweak hcopy
  exact ⟨⟨store, rfl, hretains⟩, layout, hlayout, hadded⟩

/-- Copying several sources to several weak objects, each to each. -/
theorem copyAll_accumulates {sources dest : List Address}
    (hweak : ∀ address ∈ dest, m.store.Weak address.base)
    (hrun : (dest.forM fun address => sources.forM fun source => copyObject source address type) m =
      .ok ⟨⟩ m') :
    m.Accumulates m' ∧
      ∀ address ∈ dest, ∀ source ∈ sources, m.Received type source address m'.store := by
  apply Accumulates.forM (fun address s => ∀ source ∈ sources, m.Received type source address s)
    (fun hretains hreceived source hsource => (hreceived source hsource).retained hretains)
    _ (.refl m) hrun
  intro address haddress now later hnow hsources
  apply Accumulates.forM (m.Received type · address) (fun hretains h => h.retained hretains)
    _ hnow hsources
  intro source _ now later hnow hcopy
  have hstill := hnow.retains.weak (hweak address haddress)
  obtain ⟨haccumulates, hreceived⟩ := copyObject_accumulates hstill hcopy
  exact ⟨haccumulates, hreceived.of_accumulates hnow⟩

/-- Whenever the continuation gets values, every cell keeps the initialized values it held and every
place of `dest` offers the values, converted. -/
def Gathers (ι φ : Type) [DecidableEq ι] [BEq φ] [Domain ι φ] (kont : Continuation)
    (dest : List Address) (scalar : Scalar) : Prop :=
  ∀ (forward : KontAddress → Option (ValueSet ι φ) → State → MachineM ι φ (List State))
    (values : ValueSet ι φ) (task : State) (left : List Barrier) (now later : Machine ι φ)
    (out : List State × List Barrier), invokeOne forward (some values) task kont left now = .ok out later →
    now.store.Retains later.store ∧ ∃ converted, now.store.convert scalar values = .ok converted ∧
      ∀ address ∈ dest, ∀ v ∈ converted.items, v.isInitialized = true →
        later.store.Offers address scalar v

theorem gathers_assign (hseveral : 1 < dest.length) (scalar : Scalar)
    (control : Control) (frame : FrameId) (parent : KontAddress) :
    Gathers ι φ ⟨.assign dest scalar, control, frame, parent⟩ dest scalar := by
  intro forward values task left now later out hinvoke
  obtain ⟨⟨⟩, assigned, hassigned, hrest⟩ := bind_eq_ok.mp hinvoke
  obtain ⟨_, _, hadvance, hpure⟩ := bind_eq_ok.mp hrest
  cases hpure
  have haccumulates := assignAll_accumulates hseveral hassigned
  obtain ⟨env, rfl⟩ := onlyFrames_of_advance_ok hadvance
  exact haccumulates

/-- Let an assignment whose left side stands for several places be run. For a scalar it waits for
the right side under a continuation that gathers what it is given at all the places. An aggregate is
copied at once; if every place belongs to a weak object, every cell keeps the initialized values it
held, and every place receives what each of the sources may hold. -/
theorem ambiguousAssignment_accumulates (state : State) {stmt target value : NodeId} {type : CType}
    {dest : List Address} {states : List State} {m typed located m' : Machine ι φ}
    (hstmt : m.program.construct? stmt = some (.assignment target value))
    (htype : staticType state.frame target m = .ok type typed)
    (hdest : addresses state target typed = .ok dest located) (hseveral : 1 < dest.length)
    (hrun : execute state stmt m = .ok states m') :
    (type.isAggregate = false →
      ∃ scalar kont konts assign, located.layouts.scalar type = .ok scalar ∧
        states = [⟨.expr value, state.frame, kont, state.thread, none⟩] ∧
        m'.konts.read kont = .ok konts ∧ assign ∈ konts ∧ Gathers ι φ assign dest scalar) ∧
    (type.isAggregate = true →
      ∃ sources sourced, addresses state value located = .ok sources sourced ∧
        ((∀ address ∈ dest, sourced.store.Weak address.base) → sourced.store.Retains m'.store ∧
          ∀ address ∈ dest, ∀ source ∈ sources, sourced.Received type source address m'.store)) := by
  obtain ⟨_, _, hfound, hassignment⟩ := bind_eq_ok.mp hrun
  obtain ⟨hconstruct, rfl⟩ := constructAt_eq_ok.mp hfound
  cases hstmt.symm.trans hconstruct
  obtain ⟨_, _, hfirst, hafter⟩ := bind_eq_ok.mp hassignment
  cases htype.symm.trans hfirst
  obtain ⟨_, _, hsecond, hassign⟩ := bind_eq_ok.mp hafter
  cases hdest.symm.trans hsecond
  constructor
  · intro hscalar
    rw [if_neg (by simp [hscalar])] at hassign
    obtain ⟨scalar, hclass, hdescend⟩ := check_bind_eq_ok.mp (get_bind_eq_ok.mp hassign)
    obtain ⟨kont, konts, hstates, hread, hmem⟩ := exists_of_descend_ok hdescend
    exact ⟨scalar, kont, konts, _, hclass, hstates, hread, hmem,
      gathers_assign hseveral scalar state.control state.frame state.kont⟩
  · intro haggregate
    rw [if_pos haggregate] at hassign
    obtain ⟨sources, sourced, hsources, hcopied⟩ := bind_eq_ok.mp hassign
    obtain ⟨⟨⟩, copied, hcopies, hadvance⟩ := bind_eq_ok.mp hcopied
    obtain ⟨env, rfl⟩ := onlyFrames_of_advance_ok hadvance
    refine ⟨sources, sourced, hsources, ?_⟩
    intro hweak
    obtain ⟨haccumulates, hreceived⟩ := copyAll_accumulates hweak hcopies
    exact ⟨haccumulates.retains, hreceived⟩

/-! ## A struct assigned to some element of an array -/

open Builder

/-- An array of structs, and a struct whose member is set and which is then assigned to an element
that is not known. -/
def unknownElement : Program := Builder.program do
  let type ← structDecl "S" [⟨"x", .int⟩] false
  let array ← decl "a" ((CType.plain (.struct "S")).arrayOf 3) none
  let object ← decl "s" (CType.plain (.struct "S")) none
  let start ← unary .addrOf (← id "s")
  let member ← unary .deref (← cast CType.int.pointerTo start)
  let set ← assign member (← int 9)
  let element ← index (← id "a") (← call "__VERIFIER_nondet_int" [])
  let copy ← assign element (← id "s")
  return [type, array, object, ← function "main" .int [] [set, copy]]

/-- The elements of the array. -/
def elements : List Address := [⟨.frame 0 "a", 0⟩, ⟨.frame 0 "a", 4⟩, ⟨.frame 0 "a", 8⟩]

/-- The run of the last assignment from where it is met. -/
def copyElement? (settings : Settings) : Option (Config Int Double × (CType × Machine Int Double) ×
    (List Address × Machine Int Double) × List State × Machine Int Double) := do
  let c ← Config.follow? unknownElement settings [0, 0]
  let typed ← answer? (staticType 1 12) c.machine
  let located ← answer? (addresses ⟨.stmt 15 1, 1, 0, 0, none⟩ 12) typed.2
  let done ← answer? (execute ⟨.stmt 15 1, 1, 0, 0, none⟩ 14) c.machine
  return (c, typed, located, done)

theorem runs_of_copyElement? {settings : Settings} {c : Config Int Double}
    {typed located m' : Machine Int Double}
    (hcopy : copyElement? settings = some (c, (type, typed), (dest, located), states, m')) :
    c.Reachable unknownElement settings ∧ staticType 1 12 c.machine = .ok type typed ∧
      addresses ⟨.stmt 15 1, 1, 0, 0, none⟩ 12 typed = .ok dest located ∧
      execute ⟨.stmt 15 1, 1, 0, 0, none⟩ 14 c.machine = .ok states m' := by
  simp only [copyElement?, bind_eq_bind, bind_eq_some_iff, pure_def,
    some.injEq, Prod.mk.injEq] at hcopy
  obtain ⟨_, hfollow, _, htype, _, hdest, _, hexecute, rfl, rfl, rfl, rfl⟩ := hcopy
  exact ⟨Config.reachable_follow hfollow, eq_ok_of_answer? htype, eq_ok_of_answer? hdest,
    eq_ok_of_answer? hexecute⟩

/-- Where all updates are weak, the elements keep their zeros beside the new value. -/
theorem weakElement_accumulates :
    ∃ (c : Config Int Double) (states : List State) (sourced m' : Machine Int Double),
      c.Reachable unknownElement { update := .weak } ∧
      execute ⟨.stmt 15 1, 1, 0, 0, none⟩ 14 c.machine = .ok states m' ∧
      sourced.store.Retains m'.store ∧ ∀ address ∈ elements,
        sourced.Received (.plain (.struct "S")) ⟨.frame 0 "s", 0⟩ address m'.store := by
  have hrun : (copyElement? { update := .weak }).any (fun run =>
      run.1.machine.program.construct? 14 = some (.assignment 12 13) ∧
      run.2.1.1 = .plain (.struct "S") ∧ run.2.2.1.1 = elements ∧
      (answer? (addresses ⟨.stmt 15 1, 1, 0, 0, none⟩ 13) run.2.2.1.2).map
        (fun read => (read.1, read.2.store.update)) = some ([⟨.frame 0 "s", 0⟩], .weak)) = true := by
    decide +kernel
  obtain ⟨⟨c, ⟨type, typed⟩, ⟨dest, located⟩, states, m'⟩, hcopy, hfacts⟩ :=
    (any_eq_true _ _).mp hrun
  obtain ⟨hstmt, rfl, rfl, hread⟩ := of_decide_eq_true hfacts
  obtain ⟨⟨sources, sourced⟩, hread, hsource⟩ := map_eq_some_iff.mp hread
  obtain ⟨rfl, hupdate⟩ := Prod.mk.inj hsource
  obtain ⟨hreach, htype, hdest, hexecute⟩ := runs_of_copyElement? hcopy
  obtain ⟨_, _, hsources, haccumulates⟩ :=
    (ambiguousAssignment_accumulates ⟨.stmt 15 1, 1, 0, 0, none⟩ hstmt htype hdest (by decide)
      hexecute).2 rfl
  cases (eq_ok_of_answer? hread).symm.trans hsources
  obtain ⟨hretains, hreceived⟩ := haccumulates fun _ _ => .inl hupdate
  exact ⟨c, states, sourced, m', hreach, hexecute, hretains, fun address haddress =>
    hreceived address haddress _ List.mem_cons_self⟩

/-- Where updates are strong, an element loses the zero it held. -/
theorem unknownElement_forgets : ∃ (c : Config Int Double) (typed located : Machine Int Double)
      (states : List State) (m' : Machine Int Double) (key : Nat) (cell cell' : Cell Int Double),
      c.Reachable unknownElement {} ∧
      c.machine.program.construct? 14 = some (.assignment 12 13) ∧
      staticType 1 12 c.machine = .ok (.plain (.struct "S")) typed ∧
      addresses ⟨.stmt 15 1, 1, 0, 0, none⟩ 12 typed = .ok elements located ∧
      execute ⟨.stmt 15 1, 1, 0, 0, none⟩ 14 c.machine = .ok states m' ∧
      located.store.cells[key]? = some cell ∧ .int 0 .int ∈ cell.contents.items ∧
      m'.store.cells[key]? = some cell' ∧ cell'.contents.items = [.int 9 .int] := by
  have hrun : (copyElement? {}).any (fun run =>
      run.1.machine.program.construct? 14 = some (.assignment 12 13) ∧
      run.2.1.1 = .plain (.struct "S") ∧ run.2.2.1.1 = elements ∧
      run.2.2.1.2.store.cells[1]?.map (·.contents.items) = some [.int 0 .int] ∧
      run.2.2.2.2.store.cells[1]?.map (·.contents.items) = some [.int 9 .int]) = true := by
    decide +kernel
  obtain ⟨⟨c, ⟨type, typed⟩, ⟨dest, located⟩, states, m'⟩, hcopy, hfacts⟩ :=
    (any_eq_true _ _).mp hrun
  obtain ⟨hstmt, rfl, rfl, hbefore, hafter⟩ := of_decide_eq_true hfacts
  obtain ⟨cell, hcell, hzero⟩ := map_eq_some_iff.mp hbefore
  obtain ⟨cell', hcell', hnine⟩ := map_eq_some_iff.mp hafter
  obtain ⟨hreach, htype, hdest, hexecute⟩ := runs_of_copyElement? hcopy
  exact ⟨c, typed, located, states, m', 1, cell, cell', hreach, hstmt, htype, hdest, hexecute, hcell,
    by simp [hzero], hcell', hnine⟩

end Machine

end CoreC
