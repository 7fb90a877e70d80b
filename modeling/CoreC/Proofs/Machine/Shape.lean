import CoreC.Proofs.Machine.TaskRules
import CoreC.Proofs.Memory.Resolution
import CoreC.Proofs.Memory.Sparing
import CoreC.Proofs.Program.Control

/-! # The shape of the frames

Evaluating, writing and binding names make no frame and move none: every frame stays the
activation of its block, inside the same other frame. They store no continuation either.
Where all units take bytes, memory is taken for a variable only as its frame gives it a type, and the
variable has the units of that type for good. This holds whether they succeed or fail.
-/

namespace CoreC

/-- All units take bytes, and not too many to be moved over. -/
def Layouts.Sized (l : Layouts) : Prop :=
  ∀ {type layout}, l.layout type = .ok layout →
    ∀ unit ∈ layout.units, 0 < unit.size ∧ unit.size < 2 ^ 63

namespace Machine

open Store Environment

variable {ι φ α : Type}

/-- The variable has the units of the type that its frame gives it. -/
def Lodges (m : Machine ι φ) (frame : FrameId) (name : String) : Prop :=
  ∃ type layout image, m.env.Holds ⟨frame, name, type⟩ ∧ m.layouts.layout type = .ok layout ∧
    m.store.Shows (.frame frame name) 0 image ∧ image.map Prod.fst = layout.flatten

/-- Objects lie apart, and variables have the units of their types. -/
structure Housed (policy : HeapPolicy) (m : Machine ι φ) : Prop where
  store : m.layouts.Sized → m.store.Regular policy
  homes : m.layouts.Sized → ∀ {frame name size},
    m.store.size? (.frame frame name) = some size → m.Lodges frame name

variable {m m' : Machine ι φ} {policy : HeapPolicy}

theorem Housed.withEnv (hm : m.Housed policy) {env : Environment}
    (henv : ∀ {b}, m.env.Holds b → env.Holds b) : Housed policy { m with env } where
  store := hm.store
  homes hsized _ _ _ hsome := by
    obtain ⟨type, layout, image, hb, hrest⟩ := hm.homes hsized hsome
    exact ⟨type, layout, image, henv hb, hrest⟩

/-- Memory may change, as long as new variables have the units of their types. -/
theorem Housed.withStore (hm : m.Housed policy) {store : Store ι φ} {added : Base → Prop} {written : Base → Nat → Prop}
    (hstore : m.layouts.Sized → store.Regular policy ∧ m.store.Spares added written store)
    (hadded : m.layouts.Sized → ∀ frame name, added (.frame frame name) → Lodges { m with store } frame name) :
    Housed policy { m with store } where
  store hsized := (hstore hsized).1
  homes hsized frame name size hsome := by
    obtain ⟨-, hspares⟩ := hstore hsized
    cases hold : m.store.size? (.frame frame name) with
    | none =>
      refine hadded hsized frame name ((hspares.others hold).resolve_left fun hnone => ?_)
      cases hnone.symm.trans hsome
    | some size =>
      obtain ⟨type, layout, image, hb, hlayout, hshows, hunits⟩ := hm.homes hsized hold
      obtain ⟨image', hshows', hunits', -⟩ := hspares.shows hshows
      exact ⟨type, layout, image', hb, hlayout, hshows', hunits'.trans hunits⟩

/-- The program, the continuations and the shape of the frames are the same. -/
structure SameShape (m m' : Machine ι φ) : Prop where
  outline : m'.outline = m.outline
  layouts : m'.layouts = m.layouts
  konts : m'.konts = m.konts
  env : m.env.SameShape m'.env
  housed : ∀ {policy}, m.Housed policy → m'.Housed policy

theorem shaping : Evolution (SameShape (ι := ι) (φ := φ)) where
  refl m := ⟨rfl, rfl, rfl, .refl m.env, id⟩
  trans hfirst hsecond := ⟨hsecond.outline.trans hfirst.outline, hsecond.layouts.trans hfirst.layouts,
    hsecond.konts.trans hfirst.konts, hfirst.env.trans hsecond.env, fun hm => hsecond.housed (hfirst.housed hm)⟩

/-- The machine runs the program, with the layouts of its types. -/
def Executes (o : Outline) (l : Layouts) (m : Machine ι φ) : Prop := m.outline = o ∧ m.layouts = l

/-- Under the program the operation keeps the shape, whether it succeeds or fails; its results meet
the condition. -/
abbrev Shapely (o : Outline) (l : Layouts) (Q : α → Prop) (act : MachineM ι φ α) : Prop :=
  Secures (Executes o l) SameShape (fun _ => True) act fun a _ => Q a

section Shapely

variable {o : Outline} {l : Layouts}

theorem Shapely.aside {act : MachineM ι φ α} (hact : ∀ m, SameShape m (leaves act m)) :
    Shapely o l (fun _ => True) act :=
  fun m hm _ => ⟨⟨(hact m).outline.trans hm.1, (hact m).layouts.trans hm.2⟩, hact m, fun _ _ _ => trivial⟩

theorem Shapely.onTeams (act : Teams → α × Teams) :
    Shapely o l (fun _ => True) (Machine.onTeams act : MachineM ι φ α) :=
  .aside fun m => ⟨rfl, rfl, rfl, .refl m.env, fun ⟨hstore, hhomes⟩ => ⟨hstore, hhomes⟩⟩

/-- What is returned may be known of the environment. -/
theorem Shapely.onEnv {act : Environment → Except Fault (α × Environment)} {Q : α → Environment → Prop}
    (hact : ∀ {e e' : Environment} {a}, act e = .ok (a, e') → e.SameShape e' ∧ Q a e') :
    Secures (Executes o l) SameShape (fun _ => True) (Machine.onEnv act : MachineM ι φ α) fun a m => Q a m.env := by
  refine secures_onEnv shaping fun m a env hm _ hrun => ?_
  obtain ⟨hsame, hresult⟩ := hact hrun
  exact ⟨hm, ⟨rfl, rfl, rfl, hsame, fun hm => hm.withEnv hsame.holds⟩, hresult⟩

theorem Shapely.declare (frame : FrameId) (name : String) (type : CType) :
    Secures (Executes o l) SameShape (fun _ => True)
      (Machine.onEnv fun env => env.declare frame name type : MachineM ι φ (Binding × Bool))
      fun result m => m.env.Holds result.1 :=
  Shapely.onEnv fun hdeclare => ⟨sameShape_declare hdeclare, (holds_declare hdeclare).2.2⟩

theorem added_block (s : Store ι φ) (id : Nat) (hid : id < s.heap.blocks.size) :
    (∃ other, Base.heap id = .heap other) ∧ ∀ other, Base.heap id = .heap other → other < s.heap.blocks.size := by
  refine ⟨⟨id, rfl⟩, fun other hother => ?_⟩
  cases hother
  exact hid

theorem pos_blockLayout (hsized : m.layouts.Sized) (call : NodeId) (size : Nat) :
    ∀ unit ∈ (m.blockLayout call size).units, 0 < unit.size := by
  have hwidth := m.settings.target.intWidth_pos .char
  unfold blockLayout
  dsimp only
  split
  next layout hlayout =>
    obtain ⟨type, -, hlayout⟩ := Option.map_eq_some_iff.mp hlayout
    split
    · exact fun unit hunit => (hsized hlayout unit hunit).1
    · simpa using hwidth
  next => simpa using hwidth

variable [DecidableEq ι] [BEq φ] [Domain ι φ]

/-- Memory is taken for a variable that is bound. -/
theorem Shapely.allocateBinding (b : Binding) :
    Secures (Executes o l) SameShape (·.env.Holds b) (Machine.allocateBinding b : MachineM ι φ Address) fun _ _ => True := by
  refine Secures.readNow fun m hm hb => ?_
  cases hlayout : m.layouts.layout b.type with
  | error fault => exact .throw shaping fault
  | ok layout =>
    refine secures_onStore (Q := fun _ _ => True) ?_
    rintro m hm rfl
    refine ⟨hm, ⟨rfl, rfl, rfl, .refl _, fun {policy} hm => ?_⟩, fun _ _ _ => trivial⟩
    have hpos (hsized : m.layouts.Sized) unit (hunit : unit ∈ layout.flatten) : 0 < unit.size :=
      (hsized hlayout unit (layout.mem_units_of_mem_flatten hunit)).1
    rcases leaves_allocate m.store b.base layout with heq | heq | ⟨hnew, hunits, hcount, heq⟩ <;> rw [heq]
    · refine hm.withStore (fun hsized => (sparing policy (fun _ => False) fun _ _ =>
        False).summary _ _ (hm.store hsized)) ?_
      exact fun _ _ _ => False.elim
    · exact hm
    · refine hm.withStore (fun hsized => (sparing policy (· = b.base) fun _ _ => False).object ⟨rfl, nofun⟩ hnew
        (layout.flatten_ne_nil hunits hcount) (hpos hsized) (hm.store hsized)) fun hsized frame name hbase => ?_
      cases hbase
      refine ⟨b.type, layout, _, hb, hlayout, shows_addObject (hm.store hsized).ordered.next_pos (hpos hsized), ?_⟩
      simp [blank, Function.comp_def]

/-- Where units take bytes, the operation adds no objects but blocks. -/
def Furnishes (l : Layouts) (act : StoreM ι φ α) : Prop :=
  l.Sized → ∀ policy, Keeps (fun s s' => s.Regular policy → s'.Regular policy ∧
    s.Spares (fun base => ∃ id, base = .heap id) (fun _ _ => True) s') act

/-- Evaluating, writing and binding names keep the shape. Functions that are called are in the tree
of the program. -/
def shapeRules (ho : o.Tree) (l : Layouts) : NameRules ι φ where
  Obeys := Shapely o l
  Meets := Executes o l
  Calls := o.Reaches
  Stores := Furnishes l
  pure ha := .pure shaping fun _ _ _ => ha
  throw _ := .throw shaping _
  bind hact hnext := .bind shaping hact fun b => Secures.assuming (hnext b)
  view _ hnext := Secures.read fun m hm _ => hnext m hm
  onStore {α act} hact _ := secures_onStore fun m hm _ => by
    refine ⟨hm, ⟨rfl, rfl, rfl, .refl m.env, fun {policy} hhoused => ?_⟩, fun _ _ _ => trivial⟩
    refine hhoused.withStore (fun hsized => hact (hm.2 ▸ hsized) policy m.store (hhoused.store hsized)) ?_
    exact fun _ _ _ hadded => nomatch hadded
  note _ _ := .aside fun m => ⟨rfl, rfl, rfl, .refl m.env, fun ⟨hstore, hhomes⟩ => ⟨hstore, hhomes⟩⟩
  print _ _ _ := .aside fun m => ⟨rfl, rfl, rfl, .refl m.env, fun ⟨hstore, hhomes⟩ => ⟨hstore, hhomes⟩⟩
  threads _ := .onTeams _
  calls {m name function} hm hfunction := by
    rw [hm.1] at hfunction
    obtain ⟨before, after, hsplit, -⟩ := List.lookup_eq_some_iff.mp hfunction
    exact ho.function (name, function) (by rw [hsplit]; simp)
  literal site text _ policy := (sparing policy _ _).literal added_block (fun t => t.intWidth_pos .char)
    (fun _ _ _ _ => trivial) site text
  malloc call size hm hsized policy := (sparing policy _ _).malloc added_block call
    (pos_blockLayout (hm.2 ▸ hsized) call size)
  free address _ policy := (sparing policy _ _).free address
  clear _ _ _ := spares_zeroFill fun _ => trivial
  copies source dest units _ policy := (sparing policy _ _).copyUnits source dest (fun _ _ => trivial) units 0
  chars address _ step text _ policy := (sparing policy _ _).writeChars address (fun _ _ _ _ => trivial) step text 0
  writes address _ _ _ _ _ _ policy := (sparing policy _ _).write address fun _ _ => trivial
  resolveName frame name := by
    refine Secures.read fun m _ _ => .bind shaping (Shapely.onEnv (Q := fun result env => env.Holds result.1)
      fun hresolve => ⟨sameShape_resolve hresolve, (holds_resolve hresolve).2⟩) fun result => ?_
    refine Secures.ite (fun _ => .bind shaping (Shapely.allocateBinding _) fun _ => ?_) fun _ => ?_
    all_goals exact .pure shaping fun _ _ _ => trivial
  declareLocal frame name type :=
    .bind shaping (Shapely.declare frame name type) fun result => Shapely.allocateBinding result.1
  takes frame name type := by
    refine .bind shaping (Shapely.declare frame name type) fun result => Secures.read fun m _ _ => ?_
    refine Secures.ite (fun _ => Shapely.allocateBinding _) fun _ => ?_
    exact .pure shaping fun _ _ _ => trivial

end Shapely

end Machine

end CoreC
