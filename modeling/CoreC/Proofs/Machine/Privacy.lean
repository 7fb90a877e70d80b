import CoreC.Proofs.Machine.Naming
import CoreC.Proofs.Machine.Typed
import CoreC.Proofs.Memory.Walks

/-! # Private variables

Every member of a team works in a frame of its own, and its private variables are bound there. Their
objects are new, so nothing else uses them. Those that are copied show what the shared variables show,
unit by unit, and the others were never written. Starting a team changes no cell that there was.
-/

namespace CoreC

open Environment Store List

variable {name : String} {chain : List (FrameId × Option Frame)} {outer frame : FrameId}

namespace Environment

variable {e e' : Environment} {b : Binding} {id : FrameId}

theorem lookupGlobal_of_unbound (hunbound : Unbound name chain) (hlookup : e.lookupAlong name chain = some b) :
    e.lookupGlobal name = some b := by
  induction chain with
  | nil => exact hlookup
  | cons entry outward ih =>
    obtain ⟨hhere, houtward⟩ := forall_mem_cons.mp hunbound
    obtain ⟨id, found⟩ := entry
    cases found with
    | none => cases hlookup
    | some found =>
      rw [lookupAlong, hhere found rfl] at hlookup
      exact ih houtward hlookup

/-- What is bound in a frame further in is not seen. -/
theorem lookup_inner (he : e.Ranked) (hinner : id < b.frame) {found : Frame} (hframe : e.frames[b.frame]? = some found)
    (hfree : found.types.lookup b.name = none) {seen : Binding} (hlookup : e.lookup id name = some seen) :
    (e.bindName b found).lookup id name = some seen := by
  refine ((lookup_bindName hframe hfree id name).resolve_right ?_).trans hlookup
  rintro ⟨rfl, ⟨nearer, hnearer, hmem, -⟩ | ⟨hglobal, hunbound⟩⟩
  · obtain ⟨entry, hentry, hid⟩ := mem_map.mp hmem
    exact Nat.not_lt.mpr (hid ▸ le_of_mem_chain he (hnearer.mem hentry)) hinner
  · have hseen := lookupGlobal_of_unbound hunbound hlookup
    simp [lookupGlobal, hglobal, hframe, hfree] at hseen

theorem chain_congr (he : e.Ranked) {start : FrameId} (hsame : ∀ id ≤ start, e'.frames[id]? = e.frames[id]?)
    {fuel fuel' : Nat} (hfuel : start < fuel) (hfuel' : start < fuel') : e'.chain fuel' start = e.chain fuel start := by
  induction fuel generalizing start fuel' with
  | zero => exact absurd hfuel (Nat.not_lt_zero _)
  | succ fuel ih =>
    obtain ⟨fuel', rfl⟩ := Nat.exists_eq_succ_of_ne_zero (Nat.ne_of_gt (Nat.zero_lt_of_lt hfuel'))
    unfold Environment.chain
    rw [hsame start (Nat.le_refl _)]
    cases hframe : e.frames[start]? with
    | none => rfl
    | some found =>
      dsimp only
      cases hparent : found.parent with
      | none => rfl
      | some parent =>
        have hlt := he hframe parent hparent
        refine congrArg (_ :: ·) (ih (fun id hid => hsame id (Nat.le_trans hid (Nat.le_of_lt hlt))) ?_ ?_)
        · exact Nat.lt_of_lt_of_le hlt (Nat.le_of_lt_succ hfuel)
        · exact Nat.lt_of_lt_of_le hlt (Nat.le_of_lt_succ hfuel')

/-- A further frame is not seen from the others. -/
theorem lookup_grown (he : e.Ranked) (hbelow : ∀ id ∈ e.frames, id < e.frames.size) (hid : id < e.frames.size)
    (scope : NodeId) (parent : Option FrameId) (name : String) :
    (e.grown scope parent).lookup id name = e.lookup id name := by
  have hframes other : (e.grown scope parent).frames[other]? =
      if e.frames.size = other then some ⟨scope, parent, []⟩ else e.frames[other]? := by
    simp [grown, Std.TreeMap.getElem?_insert]
  have hnone : e.frames[e.frames.size]? = none :=
    Std.TreeMap.getElem?_eq_none fun hmem => Nat.lt_irrefl _ (hbelow _ hmem)
  have hglobal : (e.grown scope parent).lookupGlobal name = e.lookupGlobal name := by
    unfold lookupGlobal
    simp only [hframes, show (e.grown scope parent).global = e.global from rfl]
    cases e.global with
    | none => rfl
    | some global =>
      by_cases hlast : e.frames.size = global
      · simp [← hlast, hnone]
      · simp [hlast]
  have halong chain : (e.grown scope parent).lookupAlong name chain = e.lookupAlong name chain := by
    induction chain with
    | nil => exact hglobal
    | cons entry outward ih =>
      obtain ⟨number, found⟩ := entry
      cases found with
      | none => rfl
      | some found => rw [lookupAlong, lookupAlong, ih]
  unfold lookup
  rw [halong]
  refine congrArg _ (chain_congr he (fun other hother => ?_) (Nat.lt_succ_of_lt hid) ?_)
  · rw [hframes, if_neg (Nat.ne_of_gt (Nat.lt_of_le_of_lt hother hid))]
  · rw [size_grown hbelow]
    exact Nat.lt_succ_of_lt (Nat.lt_succ_of_lt hid)

end Environment

namespace Machine

variable {ι φ α : Type}

/-- Work for frames further in: names seen from the outer frame stay what they are, bindings stay, and
memory is changed only where it is written. -/
structure Apart (outer : FrameId) (written : Base → Prop) (m m' : Machine ι φ) : Prop where
  layouts : m'.layouts = m.layouts
  seen : ∀ {name b}, m.env.lookup outer name = some b → m'.env.lookup outer name = some b
  holds : ∀ {b}, m.env.Holds b → m'.env.Holds b
  store : m.store.Spares (fun _ => True) (fun base _ => written base) m'.store

variable {m m' middle : Machine ι φ} {written : Base → Prop} {entries : List (String × Privatization)}

theorem Apart.trans (hfirst : Apart outer written m middle) (hsecond : Apart outer written middle m') :
    Apart outer written m m' :=
  ⟨hsecond.layouts.trans hfirst.layouts, fun h => hsecond.seen (hfirst.seen h), fun h => hsecond.holds (hfirst.holds h),
    hfirst.store.trans hsecond.store⟩

theorem Apart.mono {written' : Base → Prop} (hapart : Apart outer written m m')
    (hwritten : ∀ base, written base → written' base) : Apart outer written' m m' :=
  ⟨hapart.layouts, hapart.seen, hapart.holds, hapart.store.mono (fun _ => id) fun base _ => hwritten base⟩

/-- The frame has a variable of its own for the name, with the units of the shared one. It was never
written, or it shows what the shared one shows. -/
def Owns (m : Machine ι φ) (outer frame : FrameId) (entry : String × Privatization) : Prop :=
  ∃ shared layout image, m.env.lookup outer entry.1 = some shared ∧ shared.frame < frame ∧
    m.env.Holds ⟨frame, entry.1, shared.type⟩ ∧ m.layouts.layout shared.type = .ok layout ∧
    image.map Prod.fst = layout.flatten ∧ m.store.Shows (.frame frame entry.1) 0 image ∧
    match entry.2 with
    | .fresh => image = blank layout.flatten
    | .copied => m.store.Shows shared.base 0 image

theorem Owns.later {entry : String × Privatization} (howns : m.Owns outer frame entry)
    (hapart : Apart outer written m m')
    (hwritten : ∀ other, written (.frame other entry.1) → frame < other) : m'.Owns outer frame entry := by
  obtain ⟨shared, layout, image, hseen, hlt, hholds, hlayout, hunits, hshows, hhow⟩ := howns
  have hkept {holder} (hle : holder ≤ frame) (hshows : m.store.Shows (.frame holder entry.1) 0 image) :
      m'.store.Shows (.frame holder entry.1) 0 image := by
    obtain ⟨_, hshows, -, hsame⟩ := hapart.store.shows hshows
    exact hsame (fun _ _ htouched => Nat.not_lt.mpr hle (hwritten _ htouched)) ▸ hshows
  refine ⟨shared, layout, image, hapart.seen hseen, hlt, hapart.holds hholds, hapart.layouts ▸ hlayout, hunits,
    hkept (Nat.le_refl _) hshows, ?_⟩
  obtain ⟨name, how⟩ := entry
  cases how with
  | fresh => exact hhow
  | copied =>
    obtain ⟨rfl, -⟩ := holds_of_lookupAlong mem_chainOf hseen
    exact hkept (Nat.le_of_lt hlt) hhow

/-- The tasks are in frames of their own, from a number on, and the entries are private to them. -/
structure Secluded (m : Machine ι φ) (first : Nat) (outer : FrameId) (entries : List (String × Privatization))
    (workers : List State) : Prop where
  nodup : (workers.map (·.frame)).Nodup
  range : ∀ worker ∈ workers, first ≤ worker.frame ∧ worker.frame < m.env.frames.size
  owns : ∀ worker ∈ workers, ∀ entry ∈ entries, m.Owns outer worker.frame entry

theorem Secluded.later {first : Nat} {workers : List State}
    (hsecluded : m.Secluded first outer entries workers) (hsize : m.env.frames.size ≤ m'.env.frames.size)
    (hapart : Apart outer written m m') (hwritten : ∀ frame name,
      written (.frame frame name) → m.env.frames.size ≤ frame) :
    m'.Secluded first outer entries workers where
  nodup := hsecluded.nodup
  range worker hworker := (hsecluded.range worker hworker).imp_right fun hlt => Nat.lt_of_lt_of_le hlt hsize
  owns worker hworker entry hentry := (hsecluded.owns worker hworker entry hentry).later hapart fun frame hbase =>
    Nat.lt_of_lt_of_le (hsecluded.range worker hworker).2 (hwritten frame _ hbase)

/-- The frame binds none of the names. -/
def Vacant (m : Machine ι φ) (frame : FrameId) (names : List String) : Prop :=
  ∃ found, m.env.frames[frame]? = some found ∧ ∀ name ∈ names, found.types.lookup name = none

variable [DecidableEq ι] [BEq φ] [Domain ι φ]

/-- The machine runs the program in frames and blocks that are not shared, and its memory is laid out and
typed for that. -/
structure Tidy (o : Outline) (l : Layouts) (t : Target) (m : Machine ι φ) : Prop extends Laid m.env, Typed t m where
  outline : m.outline = o
  layouts : m.layouts = l
  ranked : m.env.Ranked
  housed : m.Housed .concrete

variable {o : Outline} {l : Layouts} {t : Target} {act : MachineM ι φ α} {a : α}

section

variable (hm : Tidy o l t m)

include hm

theorem Tidy.run {P Q : α → Prop} (hshapely : Shapely o l P act) (hsound : Sound t Q act)
    (hrun : act m = .ok a m') : Tidy o l t m' ∧ SameShape m m' := by
  obtain ⟨-, hsame, -⟩ := hshapely m ⟨hm.outline, hm.layouts⟩ trivial
  have htyped := (hsound m hm.toTyped trivial).1
  rw [leaves_of_ok hrun] at hsame htyped
  exact ⟨⟨hsame.env.laid hm.toLaid, htyped, hsame.outline.trans hm.outline, hsame.layouts.trans hm.layouts,
    hsame.env.ranked hm.ranked, hsame.housed hm.housed⟩, hsame⟩

/-- Evaluating changes no cell. -/
theorem Tidy.apart (hsized : l.Sized) (helaborates : Elaborates outer m m') (hsame : SameShape m m') :
    Apart outer (fun _ => False) m m' := by
  have hsized : m.layouts.Sized := hm.layouts ▸ hsized
  exact ⟨hsame.layouts, helaborates.env.bound, hsame.env.holds, (helaborates.store hsized (hm.housed.store hsized)).2⟩

/-- Teams and continuations are of no concern. -/
theorem Tidy.aside (teams : Teams) (allocator : KontAllocator) (konts : KontTable) :
    Tidy o l t { m with teams, allocator, konts } :=
  ⟨hm.toLaid, ⟨hm.settings, hm.target, hm.store⟩, hm.outline, hm.layouts, hm.ranked, ⟨hm.housed.store, hm.housed.homes⟩⟩

theorem Tidy.onTeams {act : Teams → α × Teams} (hrun : onTeams act m = .ok a m') :
    Tidy o l t m' ∧ m'.env.frames.size = m.env.frames.size ∧ ∀ outer, Apart outer (fun _ => False) m m' := by
  cases hrun
  exact ⟨hm.aside _ _ _, rfl, fun _ => ⟨rfl, id, id, .refl _⟩⟩

/-- A frame is added further in. -/
theorem Tidy.grown (houter : outer < m.env.frames.size) (scope : NodeId) :
    let m' := { m with env := m.env.grown scope (some outer) }
    Tidy o l t m' ∧ Apart outer (fun _ => False) m m' := by
  obtain ⟨hlaid, hincludes⟩ := laid_grown hm.toLaid scope (some outer)
  have hholds {b} (hb : m.env.Holds b) : (m.env.grown scope (some outer)).Holds b :=
    hb.imp fun _ hframe => ⟨hincludes.frames hframe.1, hframe.2⟩
  refine ⟨⟨hlaid, ⟨hm.settings, hm.target, hm.store⟩, hm.outline, hm.layouts,
    Ranked.grown hm.ranked (by simpa using houter),
    hm.housed.withEnv hholds⟩, rfl, fun hseen => ?_, hholds, .refl _⟩
  rwa [lookup_grown hm.ranked hm.below houter]

end

variable [Domain.Ranged ι φ] (ho : o.Tree) (hsized : l.Sized)

include ho hsized

section

variable (hm : Tidy o l t m)

include hm

theorem Tidy.resolveName {shared : Binding} (hrun : resolveName outer name m = .ok shared m') :
    Tidy o l t m' ∧ SameShape m m' ∧ Apart outer (fun _ => False) m m' ∧ m'.env.lookup outer name = some shared ∧
      ∀ inner > outer, m'.env.frames[inner]? = m.env.frames[inner]? := by
  obtain ⟨hm', hsame⟩ := hm.run ((shapeRules ho l).resolveName outer name) ((typedRules t).resolveName outer name) hrun
  obtain ⟨-, helaborates, hresult⟩ := elaborates_resolveName (l := l) outer name m hm.layouts trivial
  rw [leaves_of_ok hrun] at helaborates
  exact ⟨hm', hsame, hm.apart hsized helaborates hsame, hresult shared m' hrun, (helaborates.env.inner hm.ranked).2⟩

/-- A variable is copied to one that was never written. -/
theorem Tidy.copyObject (outer : FrameId) {b : Binding} (hb : m.env.Holds b)
    (hother : b.frame ≠ frame) {layout : Layout}
    (hlayout : l.layout b.type = .ok layout) (hunits : layout.flatten ≠ [])
    (hblank : m.store.Shows (.frame frame name) 0 (blank layout.flatten)) {done : PUnit}
    (hrun : copyObject b.address ⟨.frame frame name, 0⟩ b.type m = .ok done m') :
    Tidy o l t m' ∧ SameShape m m' ∧ Apart outer (· = .frame frame name) m m' ∧ m'.env = m.env ∧
      ∃ image, image.map Prod.fst = layout.flatten ∧ m'.store.Shows (.frame frame name) 0 image ∧
      m'.store.Shows b.base 0 image := by
  obtain ⟨hm', hsame⟩ := hm.run ((shapeRules ho l).copyObject b.address _ b.type)
    ((typedRules t).copyObject b.address _ b.type) hrun
  obtain rfl := hm.layouts
  have hregular := hm.housed.store hsized
  obtain ⟨found, hfound, hrun⟩ := check_bind_eq_ok.mp (get_bind_eq_ok.mp hrun)
  cases hlayout.symm.trans hfound
  obtain ⟨store, hcopy, rfl⟩ := exists_of_onStore_ok hrun
  -- What can be read has memory, and then the units of its type.
  obtain ⟨extent, hextent⟩ : ∃ extent, m.store.extents[b.base]? = some extent := by
    obtain ⟨unit, rest, hsplit⟩ := exists_cons_of_ne_nil hunits
    rw [hsplit] at hcopy
    have hcopy := get_bind_eq_ok.mp hcopy
    cases hplace : m.store.locate (b.address.shift 0) with
    | ok place =>
      obtain ⟨-, extent, hextent, -⟩ := locate_eq_ok hplace
      exact ⟨extent, hextent⟩
    | error fault =>
      rw [Store.read, hplace] at hcopy
      cases hcopy
  obtain ⟨type, found, image, ⟨holder, hholder, htype⟩, hfound, hshows, himage⟩ := hm.housed.homes hsized
    (show m.store.size? b.base = some extent.size by simp [size?, hextent])
  obtain ⟨known, hknown, hbound⟩ := hb
  cases hholder.symm.trans hknown
  cases htype.symm.trans hbound
  cases hlayout.symm.trans hfound
  have hne : Base.frame b.frame b.name ≠ .frame frame name := fun heq => hother (Base.frame.inj heq).1
  have hsizes entry (hentry : entry ∈ image) : entry.1.size < 2 ^ 63 :=
    (hsized hlayout entry.1 (layout.mem_units_of_mem_flatten (himage ▸ mem_map_of_mem hentry))).2
  obtain ⟨-, hcopied, hspares⟩ := hregular.copyUnits hne hm.store hshows (himage ▸ hblank) hsizes (himage ▸ hcopy)
  obtain ⟨_, hkept, -, heq⟩ := hspares.shows hshows
  refine ⟨hm', hsame, ⟨rfl, id, id, hspares.mono (fun _ _ => trivial) fun _ _ => And.left⟩, rfl,
    image, himage, hcopied, ?_⟩
  exact heq (fun _ _ htouched => hne htouched.1) ▸ hkept

variable (houter : outer < frame)

include houter

/-- A variable is declared in a frame that did not bind it: its object is new. -/
theorem Tidy.declareLocal {found : Frame}
    (hframe : m.env.frames[frame]? = some found) (hfree : found.types.lookup name = none)
    {type : CType} {address : Address}
    (hrun : declareLocal frame name type m = .ok address m') :
    Tidy o l t m' ∧ SameShape m m' ∧ Apart outer (fun _ => False) m m' ∧ address = ⟨.frame frame name, 0⟩ ∧
      m'.env.frames[frame]? = some { found with types := (name, type) :: found.types } ∧
      ∃ layout, l.layout type = .ok layout ∧ layout.flatten ≠ [] ∧
      m'.store.Shows (.frame frame name) 0 (blank layout.flatten) := by
  obtain ⟨hm', hsame⟩ := hm.run ((shapeRules ho l).declareLocal frame name type)
    ((typedRules t).declareLocal frame name type) hrun
  obtain rfl := hm.layouts
  have hregular := hm.housed.store hsized
  -- The frame gives the name no type, so there is no memory for it.
  have hnew : m.store.extents[Base.frame frame name]? = none := by
    by_contra hextent
    obtain ⟨extent, hextent⟩ := Option.ne_none_iff_exists'.mp hextent
    obtain ⟨bound, -, -, ⟨held, hheld, hbound⟩, -⟩ := hm.housed.homes hsized
      (show m.store.size? (.frame frame name) = some extent.size by simp [size?, hextent])
    cases hframe.symm.trans hheld
    cases hfree.symm.trans hbound
  obtain ⟨_, declared, hdeclare, hrun⟩ := bind_eq_ok.mp hrun
  simp only [onEnv, declare_of_free hframe hfree] at hdeclare
  cases hdeclare
  obtain ⟨layout, hlayout, hrun⟩ := check_bind_eq_ok.mp (get_bind_eq_ok.mp hrun)
  obtain ⟨store, hallocate, rfl⟩ := exists_of_onStore_ok hrun
  obtain ⟨rfl, hunits, hcount, rfl⟩ := allocate_ok_of_new hnew hallocate
  have hpos unit (hunit : unit ∈ layout.flatten) : 0 < unit.size :=
    (hsized hlayout unit (layout.mem_units_of_mem_flatten hunit)).1
  have hne := layout.flatten_ne_nil hunits hcount
  refine ⟨hm', hsame, ⟨rfl, ?_, hsame.env.holds, ?_⟩, rfl, ?_, layout, hlayout, hne, ?_⟩
  · exact lookup_inner (b := ⟨frame, name, type⟩) hm.ranked houter hframe hfree
  · exact ((sparing .concrete _ _).object ⟨trivial, by simp⟩ hnew hne hpos hregular).2
  · simp [bindName]
  · exact shows_addObject hregular.ordered.next_pos hpos

/-- A name is privatized in a frame that does not bind it. -/
theorem Tidy.privatize (hlast : m.env.frames.size = frame + 1)
    {names : List String} (hnew : name ∉ names) (hvacant : m.Vacant frame (name :: names))
    {how : Privatization} {done : PUnit}
    (hrun : privatize outer frame name how m = .ok done m') :
    Tidy o l t m' ∧ SameShape m m' ∧ m'.Vacant frame names ∧ Apart outer (· = .frame frame name) m m' ∧
      m'.Owns outer frame (name, how) := by
  obtain ⟨found, hframe, hfree⟩ := hvacant
  obtain ⟨hname, hnames⟩ := forall_mem_cons.mp hfree
  obtain ⟨shared, m₁, hresolve, hrun⟩ := bind_eq_ok.mp hrun
  obtain ⟨hm₁, hsame₁, hapart₁, hseen, hinner⟩ := hm.resolveName ho hsized hresolve
  rw [← hinner frame houter] at hframe
  obtain ⟨address, m₂, hdeclare, hrun⟩ := bind_eq_ok.mp hrun
  obtain ⟨hm₂, hsame₂, hapart₂, rfl, hframe₂, layout, hlayout, hunits, hblank⟩ :=
    hm₁.declareLocal ho hsized houter hframe hname hdeclare
  obtain ⟨rfl, held, hheld, htype⟩ := holds_of_lookupAlong mem_chainOf hseen
  have hother : shared.frame ≠ frame := by
    rintro rfl
    cases hframe.symm.trans hheld
    cases hname.symm.trans htype
  have hlt : shared.frame < frame := by
    have hbelow := hm₁.below shared.frame (Std.TreeMap.mem_iff_isSome_getElem?.mpr (hheld ▸ rfl))
    rw [hsame₁.env.size, hlast] at hbelow
    exact Nat.lt_of_le_of_ne (Nat.le_of_lt_succ hbelow) hother
  have hvacant : m₂.Vacant frame names := by
    refine ⟨_, hframe₂, fun other hother => ?_⟩
    rw [lookup_cons, beq_false_of_ne (ne_of_mem_of_not_mem hother hnew)]
    exact hnames other hother
  have hseen₂ := hapart₂.seen hseen
  have hholds : m₂.env.Holds ⟨frame, shared.name, shared.type⟩ := ⟨_, hframe₂, by simp⟩
  have hapart : Apart outer (· = .frame frame shared.name) m m₂ := (hapart₁.trans hapart₂).mono fun _ => False.elim
  have hsame := shaping.trans hsame₁ hsame₂
  cases how with
  | fresh =>
    cases hrun
    refine ⟨hm₂, hsame, hvacant, hapart, shared, layout, _, hseen₂, hlt, hholds, hm₂.layouts ▸ hlayout, ?_, hblank, rfl⟩
    simp [blank, Function.comp_def]
  | copied =>
    obtain ⟨hm₃, hsame₃, hapart₃, henv, image, himage, hcopied, hshows⟩ := hm₂.copyObject ho hsized outer
      (hsame₂.env.holds ⟨held, hheld, htype⟩) hother hlayout hunits hblank hrun
    refine ⟨hm₃, shaping.trans hsame hsame₃, by rwa [Vacant, henv], hapart.trans hapart₃, shared, layout, image,
      hapart₃.seen hseen₂, hlt, hapart₃.holds hholds, hm₃.layouts ▸ hlayout, himage, hcopied, hshows⟩

/-- By induction on the names: what is copied for one is not touched for the others. -/
theorem Tidy.privatizeAll
    (hlast : m.env.frames.size = frame + 1) (hnodup : (entries.map Prod.fst).Nodup)
    (hvacant : m.Vacant frame (entries.map Prod.fst)) {done : PUnit}
    (hrun : (entries.forM fun (name, how) => Machine.privatize outer frame name how) m = .ok done m') :
    Tidy o l t m' ∧ SameShape m m' ∧ Apart outer (fun base =>
      ∃ name ∈ entries.map Prod.fst, base = .frame frame name) m m' ∧
      ∀ entry ∈ entries, m'.Owns outer frame entry := by
  induction entries generalizing m with
  | nil =>
    cases hrun
    exact ⟨hm, shaping.refl _, ⟨rfl, id, id, .refl _⟩, by simp⟩
  | cons entry rest ih =>
    obtain ⟨hnew, hnodup⟩ := nodup_cons.mp hnodup
    obtain ⟨_, middle, hfirst, hrun⟩ := bind_eq_ok.mp hrun
    obtain ⟨hmiddle, hsame, hvacant, hapart, howns⟩ := hm.privatize ho hsized houter hlast hnew hvacant hfirst
    obtain ⟨hm', hsame', hapart', hothers⟩ := ih hmiddle (hsame.env.size.trans hlast) hnodup hvacant hrun
    refine ⟨hm', shaping.trans hsame hsame', .trans (hapart.mono ?_) (hapart'.mono ?_),
      forall_mem_cons.mpr ⟨?_, hothers⟩⟩
    · exact fun base hbase => ⟨entry.1, mem_cons_self, hbase⟩
    · exact fun base ⟨name, hname, hbase⟩ => ⟨name, mem_cons_of_mem _ hname, hbase⟩
    · refine howns.later hapart' fun other ⟨name, hname, hbase⟩ => absurd hname ?_
      rw [← (Base.frame.inj hbase).2]
      exact hnew

end

/-! ## Teams -/

variable {state worker : State} {task : BlockTask} {first : Nat} {workers : List State}
  (hm : Tidy o l t m) (hthere : state.frame < m.env.frames.size)
include hm hthere

theorem Tidy.startBlock
    (hnodup : (task.privatized.map Prod.fst).Nodup) (hrun : startBlock state task m = .ok worker m') :
    Tidy o l t m' ∧ worker.frame = m.env.frames.size ∧ m'.env.frames.size = m.env.frames.size + 1 ∧
      Apart state.frame (fun base => ∃ name, base = .frame m.env.frames.size name) m m' ∧
      ∀ entry ∈ task.privatized, m'.Owns state.frame worker.frame entry := by
  obtain ⟨_, _, henter, hrun⟩ := bind_eq_ok.mp hrun
  cases henter
  have hentered := hm.aside (m.teams.enterBarrier task.barrier) m.allocator m.konts
  obtain ⟨_, _, hnew, hrun⟩ := bind_eq_ok.mp hrun
  rw [newFrame_run hentered.policy] at hnew
  cases hnew
  obtain ⟨hgrown, hfirst⟩ := hentered.grown hthere task.block
  obtain ⟨_, privatized, hprivatize, hrun⟩ := bind_eq_ok.mp hrun
  obtain ⟨hm', hsame, hapart, howns⟩ := hgrown.privatizeAll ho hsized hthere (size_grown hm.below) hnodup
    ⟨_, Std.TreeMap.getElem?_insert_self, by simp⟩ hprivatize
  obtain ⟨_, _, hpush, hrun⟩ := bind_eq_ok.mp hrun
  cases hpush
  obtain ⟨_, -, hrun⟩ := check_bind_eq_ok.mp (get_bind_eq_ok.mp hrun)
  cases hrun
  have hboth : Apart state.frame (fun base => ∃ name, base = .frame m.env.frames.size name) _ privatized :=
    (hfirst.mono fun _ => False.elim).trans (hapart.mono fun _ ⟨name, _, hbase⟩ => ⟨name, hbase⟩)
  exact ⟨hm'.aside _ _ _, rfl, hsame.env.size.trans (size_grown hm.below),
    ⟨hboth.layouts, hboth.seen, hboth.holds, hboth.store⟩, howns⟩

/-- One more member leaves the others alone. -/
theorem Tidy.startMember
    (hfirst : first ≤ m.env.frames.size) (hnodup : (entries.map Prod.fst).Nodup)
    (hsecluded : m.Secluded first state.frame entries workers)
    (hrun : Machine.startBlock state task m = .ok worker m') (hprivatized : task.privatized = entries) :
    Tidy o l t m' ∧ m'.env.frames.size = m.env.frames.size + 1 ∧
      Apart state.frame (fun base => ∃ frame name, first ≤ frame ∧ base = .frame frame name) m m' ∧
      m'.Secluded first state.frame entries (worker :: workers) := by
  subst hprivatized
  obtain ⟨hm', hworker, hsize, hapart, howns⟩ := hm.startBlock ho hsized hthere hnodup hrun
  have hlater := hsecluded.later (hsize ▸ Nat.le_succ _) hapart fun frame name ⟨_, hbase⟩ =>
    Nat.le_of_eq (Base.frame.inj hbase).1.symm
  refine ⟨hm', hsize, hapart.mono fun base ⟨name, hbase⟩ => ⟨_, name, hfirst, hbase⟩,
    nodup_cons.mpr ⟨fun hmem => ?_, hlater.nodup⟩,
    forall_mem_cons.mpr ⟨?_, hlater.range⟩, forall_mem_cons.mpr ⟨howns, hlater.owns⟩⟩
  · obtain ⟨other, hother, hsame⟩ := mem_map.mp hmem
    exact Nat.ne_of_lt (hsecluded.range other hother).2 (hsame.trans hworker)
  · rw [hworker, hsize]
    exact ⟨hfirst, Nat.lt_succ_self _⟩

/-- By induction on the members still to be started. -/
theorem Tidy.startWorkers {task : ThreadId → BlockTask}
    (hfirst : first ≤ m.env.frames.size) (hnodup : (entries.map Prod.fst).Nodup)
    {states : List State} (hsecluded : m.Secluded first state.frame entries workers) {teamSize count number : Nat}
    (hrun : startWorkers state task teamSize count number workers m = .ok states m')
    (hprivatized : ∀ thread, (task thread).privatized = entries) :
    Apart state.frame (fun base => ∃ frame name, first ≤ frame ∧ base = .frame frame name) m m' ∧
      m'.Secluded first state.frame entries states := by
  induction count generalizing number workers m with
  | zero =>
    cases hrun
    refine ⟨⟨rfl, id, id, .refl _⟩, ?_, by simpa using hsecluded.range, by simpa using hsecluded.owns⟩
    rw [map_reverse]
    exact pairwise_reverse.mpr (hsecluded.nodup.imp Ne.symm)
  | succ count ih =>
    obtain ⟨thread, m₁, hnew, hrun⟩ := bind_eq_ok.mp hrun
    obtain ⟨_, m₂, henter, hrun⟩ := bind_eq_ok.mp hrun
    obtain ⟨worker, m₃, hstart, hrun⟩ := bind_eq_ok.mp hrun
    obtain ⟨hm₁, hsize₁, hapart₁⟩ := hm.onTeams hnew
    obtain ⟨hm₂, hsize₂, hapart₂⟩ := hm₁.onTeams henter
    have hsize := hsize₂.trans hsize₁
    have hapart := (hapart₁ state.frame).trans (hapart₂ state.frame)
    have hsecluded₂ := hsecluded.later (Nat.le_of_eq hsize.symm) hapart fun _ _ => False.elim
    obtain ⟨hm₃, hsize₃, hapart₃, hsecluded₃⟩ := hm₂.startMember ho hsized (hsize ▸ hthere) (hsize ▸ hfirst)
      hnodup hsecluded₂ hstart (hprivatized thread)
    have hle : m.env.frames.size ≤ m₃.env.frames.size := by omega
    obtain ⟨hapart', hsecluded'⟩ := ih hm₃ (Nat.lt_of_lt_of_le hthere hle) (Nat.le_trans hfirst hle) hsecluded₃ hrun
    exact ⟨((hapart.mono fun _ => False.elim).trans hapart₃).trans hapart', hsecluded'⟩

/-- Starting a team, from the evaluation of its clauses on. -/
theorem Tidy.startTeam {node block : NodeId} {clauses : List Clause}
    (hnodup : ((Clause.privatized clauses).map Prod.fst).Nodup) {states : List State}
    (hrun : startTeam state node clauses block m = .ok states m') :
    Apart state.frame (fun base => ∃ frame name, m.env.frames.size ≤ frame ∧ base = .frame frame name) m m' ∧
      m'.Secluded m.env.frames.size state.frame (Clause.privatized clauses) states := by
  obtain ⟨requested, m₁, hask, hrun⟩ := bind_eq_ok.mp hrun
  obtain ⟨hm₁, hsame⟩ := hm.run ((shapeRules ho l).requestedThreads state clauses)
    ((typedRules t).requestedThreads state clauses) hask
  have helaborates := elaborates_of_ok ((elaborationRules m.layouts state.frame).requestedThreads state fun _ => rfl) hask
  have hasked := hm.apart hsized helaborates hsame
  obtain ⟨_, m₂, htake, hrun⟩ := bind_eq_ok.mp hrun
  obtain ⟨hm₂, hsize₂, hapart₂⟩ := hm₁.onTeams htake
  obtain ⟨resume, -, hrun⟩ := check_bind_eq_ok.mp (get_bind_eq_ok.mp hrun)
  obtain ⟨_, m₃, henter, hrun⟩ := bind_eq_ok.mp hrun
  obtain ⟨hm₃, hsize₃, hapart₃⟩ := hm₂.onTeams henter
  have hsize : m₃.env.frames.size = m.env.frames.size := hsize₃.trans (hsize₂.trans hsame.env.size)
  obtain ⟨first, m₄, hfirst, hrun⟩ := bind_eq_ok.mp hrun
  have hnobody : m₃.Secluded m.env.frames.size state.frame (Clause.privatized clauses) [] := ⟨by simp, by simp, by simp⟩
  obtain ⟨hm₄, hsize₄, hapart₄, hsecluded⟩ := hm₃.startMember ho hsized (hsize ▸ hthere)
    (Nat.le_of_eq hsize.symm) hnodup
    hnobody hfirst rfl
  have hle : m.env.frames.size ≤ m₄.env.frames.size := by omega
  obtain ⟨hapart', hsecluded'⟩ := hm₄.startWorkers ho hsized (Nat.lt_of_lt_of_le hthere hle) hle hnodup hsecluded hrun
    fun _ => rfl
  refine ⟨.trans (.trans (.mono ?_ fun _ => False.elim) hapart₄) hapart', hsecluded'⟩
  exact (hasked.trans (hapart₂ _)).trans (hapart₃ _)

end Machine

/-- Only aggregates have to be looked at: scalars take a few bytes. -/
theorem Layouts.sized_of_aggregates {l : Layouts} (haggregates : ∀ entry ∈ l.aggregates,
    (∀ units ∈ (l.full.structUnits entry.1).toOption, ∀ unit ∈ units, 0 < unit.size ∧ unit.size < 2 ^ 63) ∧
      ∀ unit ∈ (l.full.unionUnit entry.1).toOption, 0 < unit.size ∧ unit.size < 2 ^ 63) : l.Sized := by
  have hdeclared {α : Type} {name : String} {next : Aggregate → Except Fault α} {out : α}
      (hout : l.aggregate name >>= next = .ok out) : ∃ aggregate, (name, aggregate) ∈ l.aggregates := by
    obtain ⟨aggregate, hfound, -⟩ := exists_of_bind_ok hout
    exact ⟨aggregate, mem_of_aggregate hfound⟩
  intro type layout hlayout
  rcases Resolver.layout_cases hlayout with ⟨name, -, -, hok⟩ | ⟨name, unit, -, -, hok, hunits⟩ | ⟨scalar, hunits⟩
  · obtain ⟨_, hmem⟩ := hdeclared hok
    exact (haggregates _ hmem).1 _ (by rw [hok]; rfl)
  · obtain ⟨_, hmem⟩ := hdeclared hok
    simpa [hunits] using (haggregates _ hmem).2 unit (by rw [hok]; rfl)
  · have hsizes : ∀ size ∈ [1, 2, 4, 8, 16], 0 < size ∧ size < 2 ^ 63 := by decide
    simpa [hunits] using hsizes _ (Resolver.size_mem l.target scalar)

namespace Config

variable {ι φ : Type} [DecidableEq ι] [BEq φ] [Domain ι φ] [Domain.Ranged ι φ]

/-- **Private variables are isolated.** Where activations share no frame and requests no block, and units
take bytes, let a task start a team whose clauses name no variable twice. No cell that there was changes.
The members are in different frames, which are new. In its frame, a member has a variable of its own for
each name: it has the units of the one that the task sees, which is in an earlier frame, and its object
was not there before. After `private` it was never written; after `firstprivate` both show the same, cell
by cell. -/
theorem team_isolated {p : Program} {settings : Settings} (hframes : settings.frames = .concrete)
    (hheap : settings.heap = .concrete) (hsized : (Layouts.ofProgram settings.target p).Sized) {c : Config ι φ}
    (harises : c.Arises p settings) {state : State} (hstate : state ∈ c.live) {node block : NodeId}
    {clauses : List Clause}
    (hnodup : ((Clause.privatized clauses).map Prod.fst).Nodup) {states : List State} {m' : Machine ι φ}
    (hrun : Machine.startTeam state node clauses block c.machine = .ok states m') :
    (∀ (key : Nat) (cell : Cell ι φ), c.machine.store.cells[key]? = some cell → m'.store.cells[key]? = some cell) ∧
    (states.map (·.frame)).Nodup ∧
    ∀ worker ∈ states, c.machine.env.frames.size ≤ worker.frame ∧ ∀ entry ∈ Clause.privatized clauses,
      c.machine.store.isAllocated (.frame worker.frame entry.1) = false ∧ m'.Owns state.frame worker.frame entry := by
  obtain ⟨htree, hm, hlive⟩ := harises.allFit hframes
  obtain ⟨scope, hactivates, -⟩ := (hlive state hstate).frame
  have hhoused := hheap ▸ hm.housed
  have hlayouts : c.machine.layouts.Sized := hm.layouts ▸ hsized
  obtain ⟨hapart, hsecluded⟩ := Machine.Tidy.startTeam htree hsized
    ⟨hm.toLaid, harises.occurs.typed, rfl, hm.layouts, hm.ranked, hhoused⟩
    (Machine.below_of_activates hm.toLaid hactivates) hnodup hrun
  have hnew {frame : FrameId} (hframe : c.machine.env.frames.size ≤ frame) (name : String) :
      c.machine.store.size? (.frame frame name) = none := by
    by_contra hsome
    obtain ⟨size, hsome⟩ := Option.ne_none_iff_exists'.mp hsome
    obtain ⟨_, _, _, ⟨held, hheld, _⟩, _⟩ := hhoused.homes hlayouts hsome
    exact Nat.not_lt.mpr hframe (hm.below frame (Std.TreeMap.mem_iff_isSome_getElem?.mpr (hheld ▸ rfl)))
  refine ⟨fun key cell hcell => ?_, hsecluded.nodup, fun worker hworker => ⟨(hsecluded.range worker hworker).1,
    fun entry hentry => ⟨?_, hsecluded.owns worker hworker entry hentry⟩⟩⟩
  · have hspares := (hhoused.store hlayouts).toSound.spares hapart.store fun base _ ⟨frame, name, hframe, hbase⟩ =>
      hbase ▸ hnew hframe name
    obtain ⟨contents, hcell', hsame⟩ := hspares.cells hcell
    rwa [hsame.resolve_right id] at hcell'
  · simpa [size?, isAllocated, ← Bool.not_eq_true] using hnew (hsecluded.range worker hworker).1 entry.1

open Builder Machine

/-- A task of a run starts a team, and something is found of it. -/
theorem exists_team (p : Program) (settings : Settings) (choices : List Nat) (node block : NodeId)
    (clauses : List Clause)
    (found : State → List State × Machine Int Double → Bool) (hrun : (follow? p settings choices).any (fun c =>
      c.live.any fun state => (answer? (startTeam state node clauses block) c.machine).any (found state)) = true) :
    ∃ (c : Config Int Double) (state : State) (states : List State) (m' : Machine Int Double), c.Arises p settings ∧
      state ∈ c.live ∧ startTeam state node clauses block c.machine = .ok states m' ∧
      found state (states, m') = true := by
  obtain ⟨c, hfollow, hlive⟩ := (Option.any_eq_true _ _).mp hrun
  obtain ⟨state, hstate, hteam⟩ := List.any_eq_true.mp hlive
  obtain ⟨⟨states, m'⟩, hteam, hfound⟩ := (Option.any_eq_true _ _).mp hteam
  obtain ⟨live, hsubset, harises⟩ := (reachable_follow hfollow).arises
  exact ⟨⟨c.machine, live⟩, state, states, m', harises, hsubset hstate, eq_ok_of_answer? hteam, hfound⟩

/-- A struct and a counter, of which a team of two makes private copies. -/
def privatePair : Program := program do
  let pair ← structDecl "S" [⟨"tag", .char⟩, ⟨"number", .int⟩] false
  let shared ← decl "s" (.plain (.struct "S")) none
  let counter ← decl "x" .int (some (← int 5))
  let clauses := [.numThreads (← int 2), .firstPrivateVars ["s"], .privateVars ["x"]]
  let region ← parallel clauses [← empty]
  return [pair, shared, counter, ← function "main" .int [] [region]]

theorem privatePair_isolated : ∃ (c : Config Int Double) (state : State) (states : List State)
    (m' : Machine Int Double), c.Arises privatePair {} ∧ state ∈ c.live ∧
    let clauses := [.numThreads 4, .firstPrivateVars ["s"], .privateVars ["x"]]
    privatePair.construct? 7 = some (.parallel clauses 6) ∧
    startTeam state 7 clauses 6 c.machine = .ok states m' ∧ states.length = 2 ∧
    (∀ (key : Nat) (cell : Cell Int Double), c.machine.store.cells[key]? = some cell →
      m'.store.cells[key]? = some cell) ∧
    (states.map (·.frame)).Nodup ∧
    ∀ worker ∈ states, c.machine.env.frames.size ≤ worker.frame ∧ ∀ entry ∈ Clause.privatized clauses,
      c.machine.store.isAllocated (.frame worker.frame entry.1) = false ∧ m'.Owns state.frame worker.frame entry := by
  obtain ⟨c, state, states, m', harises, hstate, hteam, hlength⟩ := exists_team privatePair {} [] 7 6
    [.numThreads 4, .firstPrivateVars ["s"], .privateVars ["x"]] (fun _ team => team.1.length = 2) (by decide +kernel)
  have hsized : (Layouts.ofProgram ({} : Settings).target privatePair).Sized :=
    Layouts.sized_of_aggregates (by decide +kernel)
  exact ⟨c, state, states, m', harises, hstate, by rfl, hteam, of_decide_eq_true hlength,
    team_isolated rfl rfl hsized harises hstate (by decide) hteam⟩

/-- A struct begins with a union that takes no bytes. -/
def hollowMember : Program := program do
  let hollow ← structDecl "U" [⟨"a", CType.char.arrayOf 0⟩] true
  let pair ← structDecl "S" [⟨"u", .plain (.union "U")⟩, ⟨"x", .int⟩] false
  let shared ← decl "s" (.plain (.struct "S")) none
  let target ← unary .deref (← cast CType.int.pointerTo (← unary .addrOf (← id "s")))
  let written ← assign target (← int 257)
  let region ← parallel [.numThreads (← int 1), .firstPrivateVars ["s"]] [← empty]
  return [hollow, pair, ← function "main" .int [] [shared, written, region]]

/-- What the variable `s` of a frame may be as an integer. -/
def integersOf (m : Machine Int Double) (frame : FrameId) : Option (List (Value Int Double)) :=
  (m.store.read ⟨.frame frame "s", 0⟩ (.int .int)).toOption.map (·.items)

/-- Copying the union writes the first byte of the integer that lies there, so under weak updates the
copy may be 1. -/
theorem hollowMember_mixed : ∃ (c : Config Int Double) (state : State) (states : List State)
    (m' : Machine Int Double), c.Arises hollowMember { update := .weak } ∧ state ∈ c.live ∧
    let clauses := [.numThreads 9, .firstPrivateVars ["s"]]
    hollowMember.construct? 12 = some (.parallel clauses 11) ∧
    startTeam state 12 clauses 11 c.machine = .ok states m' ∧
    integersOf m' state.frame = some [.int 257 .int] ∧
    states.map (fun worker => integersOf m' worker.frame) = [some [.int 1 .int, .int 257 .int]] := by
  obtain ⟨c, state, states, m', harises, hstate, hteam, hreads⟩ :=
    exists_team hollowMember { update := .weak } [0, 0, 0] 12 11
    [.numThreads 9, .firstPrivateVars ["s"]] (fun state team => integersOf team.2 state.frame = some [.int 257 .int] ∧
      team.1.map (fun worker => integersOf team.2 worker.frame) =
      [some [.int 1 .int, .int 257 .int]]) (by decide +kernel)
  exact ⟨c, state, states, m', harises, hstate, by rfl, hteam, of_decide_eq_true hreads⟩

end Config

end CoreC
