import CoreC.Proofs.Machine.Frames
import CoreC.Proofs.Memory.Certain
import CoreC.Proofs.Program.Declaration

/-! # Certain machines

A machine is sharp when its memory is, when no two activations share a frame, when a variable
has memory only once its frame binds it, and when every address holds one continuation. In a
sharp machine memory is taken for a variable at most once: a name is bound in a frame before
memory is taken for it, and what binds names by itself does so in frames that are new.
-/

namespace CoreC

open Store ValueSet Environment List

variable {env : Environment}

namespace Machine

variable {α β : Type}

section Binds

variable {ι φ : Type}

/-- The names that a frame binds, latest first. -/
def Binds (m : Machine ι φ) (frame : FrameId) (names : List String) : Prop :=
  m.env.frames[frame]?.map (fun found => found.types.map Prod.fst) = some names

theorem binds_of_adds {m : Machine ι φ} {b : Binding} (hadds : m.env.Adds env b) (other : FrameId)
    (names : List String) :
    Binds { m with env } other names ↔
      ∃ old, m.Binds other old ∧ names = if b.frame = other then b.name :: old else old := by
  obtain ⟨frame, hframe, -, rfl⟩ := hadds
  unfold Binds bindName
  simp only [Std.TreeMap.getElem?_insert, Std.compare_eq_iff_eq]
  split
  next hsame =>
    subst hsame
    simp [hframe, eq_comm]
  next => simp

end Binds

/-- The machine runs the program of the outline; nothing in it stands for more than one
thing. -/
structure Sharp (o : Outline) (m : Machine Int Double) : Prop where
  outline : m.outline = o
  store : m.store.Sharp
  unshared : m.settings.frames = .concrete
  laid : m.env.Laid
  ranked : m.env.Ranked
  kontPolicy : m.allocator.policy = .concrete
  /-- A variable has memory only if its frame binds it. -/
  bound : ∀ {frame : FrameId} {name : String}, m.store.isAllocated (.frame frame name) = true →
    ∃ names, m.Binds frame names ∧ name ∈ names
  konts : ∀ {address : KontAddress} {konts : List Continuation}, m.konts.slots[address]? = some konts →
    ∃ kont, konts = [kont] ∧ kont.frame < m.env.frames.size ∧ kont.kind.Sound (· = false) fun _ => True

/-- Frames and threads are there to stay. -/
structure Extends (m m' : Machine Int Double) : Prop where
  frames : m.env.frames.size ≤ m'.env.frames.size
  threads : m.teams.lastThread ≤ m'.teams.lastThread

theorem extending : Evolution Extends where
  refl _ := ⟨Nat.le_refl _, Nat.le_refl _⟩
  trans hfirst hsecond := ⟨Nat.le_trans hfirst.frames hsecond.frames,
    Nat.le_trans hfirst.threads hsecond.threads⟩

/-- From a sharp machine that meets `P` the operation leads to a sharp one, even when it fails;
its result meets `Q` there. -/
abbrev Determines (o : Outline) (P : Machine Int Double → Prop) (act : MachineM Int Double α)
    (Q : α → Machine Int Double → Prop) : Prop := Secures (Sharp o) Extends P act Q

variable {o : Outline} {m : Machine Int Double} {b : Binding} {frame : FrameId} {allowed : String → Prop}

/-- Another sharp memory for the same variables leaves the machine sharp. -/
theorem Sharp.withStore (hm : Sharp o m) {store : Store Int Double} (hstore : store.Sharp)
    (hsame : m.store.SameVariables store) : Sharp o { m with store } :=
  ⟨hm.outline, hstore, hm.unshared, hm.laid, hm.ranked, hm.kontPolicy,
    fun {frame name} hallocated => hm.bound ((hsame frame name).symm.trans hallocated), hm.konts⟩

/-- Teams, output, literals and what was returned are of no concern. -/
theorem Sharp.aside (hm : Sharp o m) (teams : Teams) (output : Output) (literals : Std.TreeMap NodeId Address)
    (returned : Option String) : Sharp o { m with teams, output, literals, returned } :=
  ⟨hm.outline, hm.store, hm.unshared, hm.laid, hm.ranked, hm.kontPolicy, hm.bound, hm.konts⟩

/-- Frames bind what they did, and perhaps more. -/
theorem Sharp.withEnv (hm : Sharp o m) (hlaid : env.Laid) (hranked : env.Ranked)
    (hsize : m.env.frames.size ≤ env.frames.size)
    (hbinds : ∀ frame names, m.Binds frame names → ∃ more, names ⊆ more ∧ Binds { m with env } frame more) :
    Sharp o { m with env } ∧ Extends m { m with env } := by
  refine ⟨⟨hm.outline, hm.store, hm.unshared, hlaid, hranked, hm.kontPolicy, fun hallocated => ?_,
    fun hslot => ?_⟩, hsize, Nat.le_refl _⟩
  · obtain ⟨names, hnames, hname⟩ := hm.bound hallocated
    obtain ⟨more, hmore, hnames⟩ := hbinds _ names hnames
    exact ⟨more, hnames, hmore hname⟩
  · obtain ⟨kont, hkonts, hlt, hsound⟩ := hm.konts hslot
    exact ⟨kont, hkonts, Nat.lt_of_lt_of_le hlt hsize, hsound⟩

theorem Sharp.includes (hm : Sharp o m) {m' : Machine Int Double} (hincludes : Includes m m')
    (hlaid : m'.env.Laid) (hranked : m'.env.Ranked) : Sharp o m' ∧ Extends m m' := by
  rw [hincludes.apart]
  refine hm.withEnv hlaid hranked hincludes.size fun frame names hnames => ⟨names, Subset.refl _, ?_⟩
  obtain ⟨found, hfound, hsame⟩ := Option.map_eq_some_iff.mp hnames
  exact Option.map_eq_some_iff.mpr ⟨found, hincludes.frames hfound, hsame⟩

/-- The variable is bound and has no memory yet. -/
def Unallocated (m : Machine Int Double) (b : Binding) : Prop :=
  m.store.isAllocated b.base = false ∧ ∃ names, m.Binds b.frame names ∧ b.name ∈ names

/-- Binding one more name leaves the machine sharp; the variable has no memory yet. -/
theorem Sharp.adds (hm : Sharp o m) (hadds : m.env.Adds env b) :
    Sharp o { m with env } ∧ Extends m { m with env } ∧ Unallocated { m with env } b := by
  have hbinds := binds_of_adds hadds
  have hsame := hadds.sameShape
  obtain ⟨hsharp, hextends⟩ := hm.withEnv (hsame.laid hm.laid) (hsame.ranked hm.ranked)
    (Nat.le_of_eq hsame.size.symm) fun frame names hnames => by
      refine ⟨_, ?_, (hbinds frame _).mpr ⟨names, hnames, rfl⟩⟩
      split
      · exact subset_cons_self _ _
      · exact Subset.refl _
  obtain ⟨frame, hframe, hunbound, -⟩ := hadds
  have hnames : m.Binds b.frame (frame.types.map Prod.fst) := by rw [Binds, hframe, Option.map_some]
  refine ⟨hsharp, hextends, ?_, _, (hbinds _ _).mpr ⟨_, hnames, rfl⟩, by simp⟩
  by_contra hallocated
  obtain ⟨names, hnames', hname⟩ := hm.bound (Bool.of_not_eq_false hallocated)
  cases hnames.symm.trans hnames'
  obtain ⟨entry, hentry, hsame⟩ := mem_map.mp hname
  simpa [hsame] using lookup_eq_none_iff.mp hunbound entry hentry

/-- The frame binds only names that are allowed. -/
def Limited (frame : FrameId) (allowed : String → Prop) (m : Machine Int Double) : Prop :=
  ∀ names, m.Binds frame names → ∀ name ∈ names, allowed name

theorem Limited.mono {more : String → Prop} (hmore : ∀ name, allowed name → more name)
    (hm : Limited frame allowed m) : Limited frame more m :=
  fun names hnames name hname => hmore name (hm names hnames name hname)

theorem Limited.adds (hm : Limited frame allowed m) (hadds : m.env.Adds env b)
    (hname : b.frame = frame → allowed b.name) : Limited frame allowed { m with env } := by
  intro names hnames name hmem
  obtain ⟨old, hold, rfl⟩ := (binds_of_adds hadds _ _).mp hnames
  split at hmem
  next hframe =>
    rcases mem_cons.mp hmem with rfl | hmem
    · exact hname hframe
    · exact hm old hold name hmem
  next => exact hm old hold name hmem

variable {next : β → MachineM Int Double α}

namespace Determines

variable {P : Machine Int Double → Prop} {Q : α → Machine Int Double → Prop}
  {M : β → Machine Int Double → Prop}

theorem pure {a : α} (ha : ∀ m, Sharp o m → P m → Q a m) :
    Determines o P (Pure.pure a : MachineM Int Double α) Q := Secures.pure extending ha

theorem throw (fault : Fault) :
    Determines o P (MonadExcept.throw fault : MachineM Int Double α) Q := Secures.throw extending fault

theorem bind {act : MachineM Int Double β} (hact : Determines o P act M)
    (hnext : ∀ b, Determines o (M b) (next b) Q) :
    Determines o P (act >>= next) Q := Secures.bind extending hact hnext

theorem read {next : Machine Int Double → MachineM Int Double α}
    (hnext : ∀ seen, Sharp o seen → P seen → Determines o P (next seen) Q) :
    Determines o P (MonadState.get >>= next) Q := Secures.read hnext

theorem check {result : Except Fault β} (hnext : ∀ b, result = .ok b → Determines o P (next b) Q) :
    Determines o P (Machine.check result >>= next) Q := by
  cases result with
  | ok b => exact hnext b rfl
  | error fault => exact throw fault

theorem ite {c : Prop} [Decidable c] {yes no : MachineM Int Double α} (hyes : Determines o P yes Q)
    (hno : Determines o P no Q) : Determines o P (if c then yes else no) Q :=
  Secures.ite (fun _ => hyes) fun _ => hno

/-- An operation on memory alone that leaves it sharp. -/
theorem onStore {act : StoreM Int Double α} {Q : Machine Int Double → Prop}
    (hact : ∀ m, Sharp o m → P m → Sharp o { m with store := leaves act m.store })
    (hQ : ∀ m store, P m → Q { m with store }) : Determines o P (Machine.onStore act) fun _ => Q := by
  refine secures_onStore fun m hm hPm => ⟨hact m hm hPm, ⟨Nat.le_refl _, Nat.le_refl _⟩, fun _ store _ => ?_⟩
  exact hQ m store hPm

theorem onEnv {act : Environment → Except Fault (α × Environment)}
    (hact : ∀ m a env, Sharp o m → P m → act m.env = .ok (a, env) →
      Sharp o { m with env } ∧ Extends m { m with env } ∧ Q a { m with env }) :
    Determines o P (Machine.onEnv act) Q := secures_onEnv extending hact

theorem aside {act : MachineM Int Double α} (hact : ∀ m, ∃ a teams output literals returned,
      act m = .ok a { m with teams, output, literals, returned } ∧ m.teams.lastThread ≤ teams.lastThread) :
    Determines o (Limited frame allowed) act fun _ m => True ∧ Limited frame allowed m := by
  intro m hm hlimited
  obtain ⟨a, teams, output, literals, returned, hrun, hthreads⟩ := hact m
  rw [leaves_of_ok hrun, hrun]
  refine ⟨hm.aside _ _ _ _, ⟨Nat.le_refl _, hthreads⟩, fun _ _ hout => ?_⟩
  cases hout
  exact ⟨trivial, hlimited⟩

end Determines

/-! ## Names -/

/-- Memory is taken for a variable that has none. -/
theorem determines_allocateBinding (b : Binding) :
    Determines o (fun m => m.Unallocated b ∧ Limited frame allowed m) (allocateBinding b) fun _ =>
      Limited frame allowed := by
  refine .read fun seen _ _ => .check fun layout _ => .onStore ?_ fun _ _ hm => hm.2
  rintro m hm ⟨⟨hnew, names, hbinds, hname⟩, -⟩
  obtain ⟨hsharp, hsame⟩ := hm.store.leaves_allocate hnew (by simp [Binding.base]) layout
  refine ⟨hm.outline, hsharp, hm.unshared, hm.laid, hm.ranked, hm.kontPolicy,
    fun {frame name} hallocated => ?_, hm.konts⟩
  by_cases hother : Base.frame frame name = b.base
  · cases hother
    exact ⟨names, hbinds, hname⟩
  · exact hm.bound ((hsame _ hother).symm.trans hallocated)

/-- Resolving a name binds it at most in a frame from where it is seen outward, and takes
memory for it only then. -/
theorem determines_resolveName (start : FrameId) (name : String) (hname : frame ≤ start → allowed name) :
    Determines o (Limited frame allowed) (resolveName start name) fun _ => Limited frame allowed := by
  refine .read fun seen _ _ => ?_
  refine .bind (M := fun result m => (result.2 = true → m.Unallocated result.1) ∧ Limited frame allowed m)
    (.onEnv fun m result env hm hlimited hresolve => ?_) fun result => ?_
  · obtain ⟨b, fresh⟩ := result
    rcases resolve_eq_ok hresolve with ⟨-, rfl, ⟨inner, hmem⟩, hadds⟩ | ⟨rfl, rfl⟩
    · obtain ⟨hsharp, hextends, hunallocated⟩ := hm.adds hadds
      refine ⟨hsharp, hextends, fun _ => hunallocated, hlimited.adds hadds fun hframe => hname ?_⟩
      exact hframe ▸ le_of_mem_chain hm.ranked hmem
    · exact ⟨hm, extending.refl m, fun hfresh => (nomatch hfresh), hlimited⟩
  · obtain ⟨b, fresh⟩ := result
    cases fresh with
    | true =>
      refine .bind (Secures.from_pre (determines_allocateBinding b) ?_) fun _ => .pure fun _ _ hm => hm
      exact fun m _ hm => ⟨hm.1 rfl, hm.2⟩
    | false => exact .pure fun m _ hm => hm.2

/-- Declaring a variable that its frame does not bind takes memory for it. -/
theorem determines_declareLocal {before : String → Prop} {name : String} (hnew : ¬before name)
    (hname : allowed name) (hbefore : ∀ other, before other → allowed other) (type : CType) :
    Determines o (Limited frame before) (declareLocal frame name type) fun _ => Limited frame allowed := by
  refine .bind (M := fun result m => m.Unallocated result.1 ∧ Limited frame allowed m)
    (.onEnv fun m result env hm hlimited hdeclare => ?_) fun result => determines_allocateBinding result.1
  obtain ⟨b, fresh⟩ := result
  obtain ⟨-, rfl, ⟨-, hadds⟩ | ⟨-, -, found, hfound, hbound⟩⟩ := declare_eq_ok hdeclare
  · obtain ⟨hsharp, hextends, hunallocated⟩ := hm.adds hadds
    exact ⟨hsharp, hextends, hunallocated, (hlimited.mono hbefore).adds hadds fun _ => hname⟩
  · obtain ⟨before, after, hsplit, -⟩ := lookup_eq_some_iff.mp hbound
    exact absurd (hlimited _ (by rw [Binds, hfound]; rfl) _ (by simp [hsplit])) hnew

/-- A declaration that is met again leaves the variable as it is. -/
theorem determines_takeVariable {start : FrameId} {name : String}
    (hname : frame ≤ start → allowed name) (type : CType) :
    Determines o (Limited frame allowed) (takeVariable start name type) fun _ => Limited frame allowed := by
  refine .bind (M := fun result m => (result.2 = true → m.Unallocated result.1) ∧ Limited frame allowed m)
    (.onEnv fun m result env hm hlimited hdeclare => ?_) fun result => .read fun seen hseen _ => ?_
  · obtain ⟨b, fresh⟩ := result
    obtain ⟨rfl, rfl, ⟨-, hadds⟩ | ⟨rfl, rfl, -⟩⟩ := declare_eq_ok hdeclare
    · obtain ⟨hsharp, hextends, hunallocated⟩ := hm.adds hadds
      exact ⟨hsharp, hextends, fun _ => hunallocated, hlimited.adds hadds fun hframe =>
        hname (Nat.le_of_eq hframe.symm)⟩
    · exact ⟨hm, extending.refl m, fun hfresh => (nomatch hfresh), hlimited⟩
  · refine Secures.ite (fun hcase => Secures.from_pre (determines_allocateBinding result.1) fun _ _ hm => ?_) fun _ => ?_
    · exact ⟨hm.1 (hcase.resolve_right fun hframes => nomatch hseen.unshared.symm.trans hframes), hm.2⟩
    · exact Determines.pure fun _ _ hm => hm.2

/-! ## Evaluation -/

theorem length_indexedAddresses {size : Nat} {bases indices : ValueSet Int Double}
    (hbases : bases.Single) (hindices : indices.Single) {places : List Address}
    (hplaces : m.indexedAddresses size bases.items indices.items = .ok places) : places.length = 1 := by
  obtain ⟨base, hbase⟩ := length_eq_one_iff.mp hbases
  obtain ⟨index, hindex⟩ := length_eq_one_iff.mp hindices
  rw [hbase, hindex] at hplaces
  obtain ⟨found, hfound, hdone⟩ := exists_of_bind_ok hplaces
  cases hdone
  obtain ⟨start, -, hfound⟩ := exists_of_bind_ok hfound
  obtain ⟨found', hfound, hdone⟩ := exists_of_bind_ok hfound
  cases hdone
  obtain ⟨n, -, hfound⟩ := exists_of_bind_ok hfound
  obtain ⟨address, -, hfound⟩ := exists_of_bind_ok hfound
  cases hfound
  rfl

/-- In a sharp machine there is one value at a time, and one place. -/
def sharpRules (o : Outline) (frame : FrameId) (allowed : String → Prop) : WriteRules Int Double where
  Obeys Q act := Determines o (Limited frame allowed) act fun a m => Q a ∧ Limited frame allowed m
  Meets := Sharp o
  Values := Single
  Places places := places.length = 1
  Stores := Sharpens
  Forces forceWeak := forceWeak = false
  pure ha := .pure fun _ _ hm => ⟨ha, hm⟩
  throw _ := .throw _
  bind hact hnext := .bind hact fun b => fun m hm hb => hnext b hb.1 m hm hb.2
  view _ hnext := .read fun m hm _ => hnext m hm
  onStore hact _ := .onStore (fun m hm _ => hm.withStore (hact m.store hm.store trivial).1
    (hact m.store hm.store trivial).2.1) fun _ _ hm => ⟨trivial, hm⟩
  note _ _ := .aside fun _ => ⟨_, _, _, _, _, rfl, Nat.le_refl _⟩
  print _ _ _ := .aside fun _ => ⟨_, _, _, _, _, rfl, Nat.le_refl _⟩
  threads _ := .aside fun _ => ⟨_, _, _, _, _, rfl, Nat.le_refl _⟩
  literal := sharpens_literal
  malloc call _ _ := sharpens_request (fun _ hunowned => malloc_of_unowned hunowned _) fun _ =>
    secures_allocateBlock _ _
  free := sharpens_free
  clear := sharpens_zeroFill
  copies source dest units := sharpens_of_leaves
    (sharpening.copyUnits source dest (fun hread hs => ⟨hs.read hread, rfl⟩) units 0)
  chars address type step text := sharpens_writeChars address type step text 0
  writes address _ hforce _ hvalues hconverted := by
    subst hforce
    exact sharpens_of_leaves (sharpening.write address fun _ _ => ⟨single_convert hvalues hconverted, rfl⟩)
  strong := rfl
  sole hplaces := by simp [hplaces]
  single := single_singleton
  place _ := rfl
  read hm hplaces hvalues :=
    single_foldlM hplaces (fun _ _ _ hread => hm.store.read hread) hvalues
  operate hlefts hrights hout :=
    quota_one.lift₂ hlefts hrights (fun _ _ _ => quota_one.operate Exact.yields_one) hout
  unary hvalues hout :=
    single_foldlM hvalues (fun _ _ _ => quota_one.operateUnary Exact.yields_one) hout
  convert _ hvalues hout := single_convert hvalues hout
  targets hvalues hplaces := (length_of_mapM_ok hplaces).trans hvalues
  indexed hbases hindices hplaces := length_indexedAddresses hbases hindices hplaces
  pointers _ hplaces := single_map hplaces _

/-- Evaluation in a sharp machine binds only names that stand in what is evaluated. -/
def certainRules (hp : o.program.Determined) (frame : FrameId) (allowed : String → Prop) :
    DeclarationRules Int Double where
  toWriteRules := sharpRules o frame allowed
  Allows _ node := ∀ name, o.program.Mentions node name → allowed name
  Names start name := frame ≤ start → allowed name
  blocks := (sharpRules o frame allowed).allocateBlock sharpens_zeroFill
  child hm hnode hconstruct hchild name hmentions := by
    rw [program, hm.outline] at hconstruct
    exact hnode name (.under hconstruct hchild hmentions)
  resolve {m node name} start hm hnode hconstruct := by
    rw [program, hm.outline] at hconstruct
    exact Secures.weaken (determines_resolveName start name fun _ => hnode name (.here hconstruct))
      fun _ _ hm => ⟨trivial, hm⟩
  undetermined _ hm hm' _ hcall hcallee := by
    rw [program, hm.outline] at hcall
    rw [program, hm'.outline] at hcallee
    obtain ⟨node, hnode, hconstruct⟩ := Program.mem_of_construct? hcall
    exact absurd hcallee (hp node hnode _ (by rw [hconstruct]; rfl))
  resolveName hname := Secures.weaken (determines_resolveName _ _ hname) fun _ _ hm => ⟨trivial, hm⟩
  takes type hname := Secures.weaken (determines_takeVariable hname type) fun _ _ hm => ⟨trivial, hm⟩

end Machine

end CoreC
