import CoreC.Proofs.Memory.Growth

/-! # Writes that add

A weak write takes no initialized value away from any cell, whether it meets a cell exactly or
goes byte by byte, and where it meets a cell of its class, the new values are among its
contents. A set keeps one of the values that it takes for the same (the two zeros of a floating
type), so a value is among the contents if one that counts as the same is.
-/

namespace CoreC

open Value ValueSet List

variable {ι φ : Type}

section Same

variable [DecidableEq ι] [BEq φ]

/-- The values are the same, or a set takes them for the same. -/
def Value.Same (v w : Value ι φ) : Prop := v = w ∨ (v == w) = true

/-- Only floating numbers are taken for the same as others. -/
theorem Value.eq_or_float_of_beq {v w : Value ι φ} (hsame : (v == w) = true) :
    v = w ∨ ∃ a b kind, v = .float a kind ∧ w = .float b kind ∧ (a == b) = true := by
  cases v with
  | int | pointer | function | uninitialized => exact .inl (eq_of_beq trivial hsame)
  | float a kind =>
    change same _ w = true at hsame
    cases w with
    | float b kind' =>
      simp only [same, Bool.and_eq_true, decide_eq_true_eq] at hsame
      exact .inr ⟨a, b, kind, rfl, by rw [hsame.2], hsame.1⟩
    | int | pointer | function | uninitialized => cases hsame

instance [PartialEquivBEq φ] : PartialEquivBEq (Value ι φ) where
  symm {v w} hsame := by
    rcases eq_or_float_of_beq hsame with rfl | ⟨a, b, kind, rfl, rfl, hab⟩
    · exact hsame
    · change (b == a && decide (kind = kind)) = true
      simp [BEq.symm hab]
  trans {u v w} hfirst hsecond := by
    rcases eq_or_float_of_beq hfirst with rfl | ⟨a, b, kind, rfl, rfl, hab⟩
    · exact hsecond
    · rcases eq_or_float_of_beq hsecond with rfl | ⟨b', c, kind', hb, rfl, hbc⟩
      · exact hfirst
      · cases hb
        change (a == c && decide (kind = kind)) = true
        simp [BEq.trans hab hbc]

namespace Value.Same

variable {u v w : Value ι φ}

theorem refl (v : Value ι φ) : v.Same v := .inl rfl

theorem trans [PartialEquivBEq φ] (hfirst : u.Same v) (hsecond : v.Same w) : u.Same w := by
  rcases hfirst with rfl | hfirst
  · exact hsecond
  · rcases hsecond with rfl | hsecond
    · exact .inr hfirst
    · exact .inr (PartialEquivBEq.trans hfirst hsecond)

theorem isInitialized_eq (hsame : v.Same w) : v.isInitialized = w.isInitialized := by
  rcases hsame with rfl | hsame
  · rfl
  · change v.same w = true at hsame
    cases v <;> cases w <;> simp_all [same, isInitialized]

end Value.Same

end Same

/-- Doubles are equal if they are numbers and lie at one place of the line. -/
theorem Double.beq_iff (x y : Double) :
    (x == y) = true ↔ x.isNaN = false ∧ y.isNaN = false ∧ x.rank = y.rank := by
  change (x.compare? y == some .eq) = true ↔ _
  unfold compare?
  cases hx : x.isNaN <;> cases hy : y.isNaN <;> simp

instance : PartialEquivBEq Double where
  symm {x y} hsame := by
    obtain ⟨hx, hy, hrank⟩ := (x.beq_iff y).mp hsame
    exact (y.beq_iff x).mpr ⟨hy, hx, hrank.symm⟩
  trans {x y z} hfirst hsecond := by
    obtain ⟨hx, -, hrank⟩ := (x.beq_iff y).mp hfirst
    obtain ⟨-, hz, hrank'⟩ := (y.beq_iff z).mp hsecond
    exact (x.beq_iff z).mpr ⟨hx, hz, hrank.trans hrank'⟩

namespace ValueSet

variable [DecidableEq ι] [BEq φ]

/-- The value is in the set, or one that counts as the same. -/
def Has (s : ValueSet ι φ) (v : Value ι φ) : Prop := ∃ w ∈ s.items, v.Same w

variable {v : Value ι φ} {s : ValueSet ι φ}

theorem has_of_mem (hv : v ∈ s.items) : s.Has v := ⟨v, hv, .refl v⟩

theorem has_insert (s : ValueSet ι φ) (v : Value ι φ) : (s.insert v).Has v := by
  unfold insert
  split
  next hcontains =>
    obtain ⟨w, hw, hsame⟩ := contains_iff_exists_mem_beq.mp hcontains
    exact ⟨w, hw, .inr hsame⟩
  next => exact has_of_mem (by simp)

theorem Has.insertAll (hv : s.Has v) (values : List (Value ι φ)) : (s.insertAll values).Has v := by
  obtain ⟨w, hw, hsame⟩ := hv
  exact ⟨w, subset_insertAll s values hw, hsame⟩

theorem has_insertAll (s : ValueSet ι φ) {values : List (Value ι φ)}
    (hv : v ∈ values) : (s.insertAll values).Has v := by
  induction values generalizing s with
  | nil => cases hv
  | cons w rest ih =>
    rcases mem_cons.mp hv with rfl | hrest
    · exact (has_insert s v).insertAll rest
    · exact ih (s.insert w) hrest

variable [PartialEquivBEq φ]

theorem Has.union (hv : s.Has v) (t : ValueSet ι φ) : (t.union s).Has v := by
  obtain ⟨w, hw, hsame⟩ := hv
  obtain ⟨u, hu, hsame'⟩ := has_insertAll t hw
  exact ⟨u, hu, hsame.trans hsame'⟩

theorem Has.merge {fresh : ValueSet ι φ} (hv : fresh.Has v) (weak : Bool)
    (old : ValueSet ι φ) : (Store.merge weak old fresh).Has v := by
  unfold Store.merge
  split
  · exact hv.union old
  · exact hv

/-- Contents that a set takes for the same have the same values. -/
theorem Has.of_same {s t : ValueSet ι φ} (hsame : s.same t = true) (hv : t.Has v) :
    s.Has v := by
  obtain ⟨w, hw, hvw⟩ := hv
  obtain ⟨items⟩ := s
  obtain ⟨others⟩ := t
  replace hsame : (items == others) = true := hsame
  suffices hfound : ∃ u ∈ items, (u == w) = true by
    obtain ⟨u, hu, huw⟩ := hfound
    exact ⟨u, hu, hvw.trans (.inr (PartialEquivBEq.symm huw))⟩
  clear hvw
  induction items generalizing others with
  | nil => cases others <;> simp_all
  | cons u rest ih =>
    cases others with
    | nil => simp at hsame
    | cons x others =>
      rw [cons_beq_cons, Bool.and_eq_true] at hsame
      rcases mem_cons.mp hw with rfl | hrest
      · exact ⟨u, mem_cons_self, hsame.1⟩
      · obtain ⟨found, hfound, heq⟩ := ih others hrest hsame.2
        exact ⟨found, mem_cons_of_mem u hfound, heq⟩

end ValueSet

theorem Scalar.size_eq_of_compatible {a b : Scalar} (hcompatible : a.compatible b = true)
    {t : Target} : a.size t = b.size t := by
  unfold compatible at hcompatible
  split at hcompatible
  · rfl
  · rw [of_decide_eq_true hcompatible]

/-- The cell is the same but for its contents, which keep every initialized value. -/
def Cell.Retains (cell cell' : Cell ι φ) : Prop :=
  ∃ contents, cell' = { cell with contents } ∧
    ∀ v ∈ cell.contents.items, v.isInitialized = true → v ∈ contents.items

theorem Cell.Retains.refl (cell : Cell ι φ) : cell.Retains cell := ⟨_, rfl, fun _ hv _ => hv⟩

theorem Cell.Retains.trans {cell middle cell' : Cell ι φ} (hfirst : cell.Retains middle)
    (hsecond : middle.Retains cell') : cell.Retains cell' := by
  obtain ⟨contents, rfl, hkept⟩ := hfirst
  obtain ⟨contents', rfl, hkept'⟩ := hsecond
  exact ⟨contents', rfl, fun v hv hinit => hkept' v (hkept v hv hinit) hinit⟩

namespace Store

/-- The stores differ in the contents of their cells only, and those keep every initialized
value. -/
structure Retains (s s' : Store ι φ) : Prop where
  target : s'.target = s.target
  update : s'.update = s.update
  extents : s.extents = s'.extents
  heap : s.heap = s'.heap
  cells : ∀ key : Nat, Option.Rel Cell.Retains s.cells[key]? s'.cells[key]?

namespace Retains

variable {s middle s' : Store ι φ}

theorem refl (s : Store ι φ) : s.Retains s := by
  refine ⟨rfl, rfl, rfl, rfl, ?_⟩
  intro key
  cases s.cells[key]? with
  | none => exact .none
  | some cell => exact .some (.refl cell)

theorem trans (hfirst : s.Retains middle) (hsecond : middle.Retains s') : s.Retains s' where
  target := hsecond.target.trans hfirst.target
  update := hsecond.update.trans hfirst.update
  extents := hfirst.extents.trans hsecond.extents
  heap := hfirst.heap.trans hsecond.heap
  cells key := rel_trans .trans (hfirst.cells key) (hsecond.cells key)

variable (hretains : s.Retains s')

include hretains

theorem isSummary_eq (base : Base) : s'.isSummary base = s.isSummary base := by
  unfold isSummary
  rw [hretains.extents, hretains.heap]

theorem weak {base : Base} (hweak : s.Weak base) : s'.Weak base := by
  unfold Weak
  rwa [hretains.update, hretains.isSummary_eq]

theorem locate {address : Address} {place : Place ι φ} (hplace : s.locate address = .ok place) :
    ∃ place', s'.locate address = .ok place' ∧ place.key = place'.key ∧
      place.within = place'.within ∧ place.cell.Retains place'.cell := by
  have hagree := locate_rel hretains.extents hretains.heap hretains.cells address
  rw [hplace] at hagree
  generalize s'.locate address = located at hagree
  cases hagree with
  | ok hplace => exact ⟨_, rfl, hplace⟩

theorem locate_symm {address : Address} {place' : Place ι φ}
    (hplace' : s'.locate address = .ok place') :
    ∃ place, s.locate address = .ok place ∧ place.key = place'.key ∧
      place.within = place'.within ∧ place.cell.Retains place'.cell := by
  have hagree := locate_rel hretains.extents hretains.heap hretains.cells address
  rw [hplace'] at hagree
  generalize s.locate address = located at hagree
  cases hagree with
  | ok hplace => exact ⟨_, rfl, hplace⟩

end Retains

/-- The address is that of a whole cell of the class, which may hold the value. -/
def MayHold (s : Store ι φ) (address : Address) (scalar : Scalar) (v : Value ι φ) : Prop :=
  ∃ place, s.locate address = .ok place ∧ place.within = 0 ∧
    place.cell.scalar.compatible scalar = true ∧ v ∈ place.cell.contents.items

variable {v : Value ι φ}

theorem MayHold.retained {s s' : Store ι φ} (hretains : s.Retains s') {address : Address}
    {scalar : Scalar} (hinit : v.isInitialized = true) (hv : s.MayHold address scalar v) :
    s'.MayHold address scalar v := by
  obtain ⟨place, hplace, hwithin, hcompatible, hmem⟩ := hv
  obtain ⟨place', hplace', -, hsame, contents, hcell, hkept⟩ := hretains.locate hplace
  refine ⟨place', hplace', hsame.symm.trans hwithin, ?_, ?_⟩
  · rw [hcell]
    exact hcompatible
  · rw [hcell]
    exact hkept v hmem hinit

/-- Units with the distance of each from where the first begins. -/
def placed : List StorageUnit → Int → List (StorageUnit × Int)
  | [], _ => []
  | unit :: rest, offset =>
    (unit, offset) :: placed rest (offset + Number.displacement unit.size)

section Write

theorem isInitialized_retag (scalar : Scalar) (v : Value ι φ) :
    (retag scalar v).isInitialized = v.isInitialized := by
  cases v <;> cases scalar <;> rfl

variable [DecidableEq ι] [BEq φ] [Domain ι φ] {s s' : Store ι φ} {address : Address} {scalar : Scalar}
  {values : ValueSet ι φ} {forceWeak : Bool}

omit [Domain ι φ] in
theorem retains_commit {updates : List (Nat × ValueSet ι φ)}
    (hupdates : ∀ entry ∈ updates, ∃ cell fresh, s.cells[entry.1]? = some cell ∧
      entry.2 = merge true cell.contents fresh) : s.Retains (s.commit updates) where
  target := commit_target s updates
  update := commit_update s updates
  extents := (commit_extents s updates).symm
  heap := (commit_heap s updates).symm
  cells key := by
    rw [getElem?_commit]
    cases hcell : s.cells[key]? with
    | none => exact .none
    | some cell =>
      refine .some ⟨_, rfl, ?_⟩
      intro v hv hinit
      refine settle_induction (P := fun held => v ∈ held.items) ?_ hv
      rintro entry hentry rfl
      obtain ⟨same, fresh, hsame, heq⟩ := hupdates entry hentry
      rw [hcell] at hsame
      cases hsame
      rw [heq]
      exact mem_merge hv hinit fresh

/-- A weak write takes no initialized value away, from any cell. -/
theorem retains_write (hweak : forceWeak = true ∨ s.Weak address.base)
    (hwrite : write address values scalar forceWeak s = .ok ⟨⟩ s') : s.Retains s' := by
  unfold write at hwrite
  split at hwrite
  next updates hupdates =>
    cases hwrite
    refine retains_commit fun entry hentry => ?_
    obtain ⟨-, cell, fresh, -, -, hcell, -, heq⟩ := exists_of_mem_updates hupdates hentry
    rw [weak_eq_true hweak] at heq
    exact ⟨cell, fresh, hcell, heq⟩
  next => cases hwrite

/-- If a whole cell of the class lies at the address, the value is among its contents. -/
def Offers (s : Store ι φ) (address : Address) (scalar : Scalar) (v : Value ι φ) : Prop :=
  ∀ place, s.locate address = .ok place → place.within = 0 →
    place.cell.scalar.compatible scalar = true → place.cell.contents.Has (retag place.cell.scalar v)

omit [Domain ι φ] in
theorem Same.retag {v w : Value ι φ} (hsame : v.Same w) (scalar : Scalar) :
    (Store.retag scalar v).Same (Store.retag scalar w) := by
  rcases hsame with rfl | hsame
  · exact .refl _
  · rcases eq_or_float_of_beq hsame with rfl | ⟨a, b, kind, rfl, rfl, -⟩
    · exact .refl _
    · cases scalar <;> exact .inr hsame

omit [Domain ι φ] in
theorem Offers.of_same [PartialEquivBEq φ] {v w : Value ι φ} (hsame : v.Same w)
    (hw : s.Offers address scalar w) : s.Offers address scalar v := by
  intro place hplace hwithin hcompatible
  obtain ⟨u, hu, hwu⟩ := hw place hplace hwithin hcompatible
  exact ⟨u, hu, (Same.retag hsame _).trans hwu⟩

omit [Domain ι φ] in
theorem Offers.retained (hretains : s.Retains s') (hinit : v.isInitialized = true)
    (hoffers : s.Offers address scalar v) : s'.Offers address scalar v := by
  intro place' hplace' hwithin hcompatible
  obtain ⟨place, hplace, -, hsame, contents, hcell, hkept⟩ := hretains.locate_symm hplace'
  rw [hcell] at hcompatible ⊢
  obtain ⟨w, hw, hvw⟩ := hoffers place hplace (hsame.trans hwithin) hcompatible
  refine ⟨w, hkept w hw ?_, hvw⟩
  rw [← hvw.isInitialized_eq, isInitialized_retag, hinit]

/-- A write at a whole cell of its class touches that cell only. -/
theorem updates_of_whole {place : Place ι φ} (hplace : s.locate address = .ok place)
    (hwithin : place.within = 0) (hcompatible : place.cell.scalar.compatible scalar = true)
    (values : ValueSet ι φ) (forceWeak : Bool) :
    s.updates address values scalar forceWeak =
      .ok [(place.key, merge (forceWeak || s.update = .weak || s.isSummary address.base)
        place.cell.contents (.ofList (values.items.map (retag place.cell.scalar))))] := by
  unfold updates
  rw [hplace]
  exact if_pos ⟨hwithin, hcompatible, Scalar.size_eq_of_compatible hcompatible⟩

omit [Domain ι φ] in
/-- A value of new contents is there once they are installed. -/
theorem has_settle [PartialEquivBEq φ] (key : Nat) {contents : ValueSet ι φ}
    (hv : contents.Has v) (held : ValueSet ι φ) : (settle key [(key, contents)] held).Has v := by
  unfold settle settle
  cases hsame : held.same contents with
  | true => simpa using hv.of_same hsame
  | false => simpa using hv

/-- A weak write at a whole cell of its class adds its values to the contents. -/
theorem offers_write [PartialEquivBEq φ] (hweak : forceWeak = true ∨ s.Weak address.base)
    (hwrite : write address values scalar forceWeak s = .ok ⟨⟩ s')
    (hv : v ∈ values.items) : s'.Offers address scalar v := by
  have hretains := retains_write hweak hwrite
  intro place' hplace' hwithin hcompatible
  obtain ⟨place, hplace, hkey, hsame, contents, hcell, -⟩ := hretains.locate_symm hplace'
  have hscalar : place'.cell.scalar = place.cell.scalar := by rw [hcell]
  rw [hscalar] at hcompatible ⊢
  have hfresh : (ofList (values.items.map (retag place.cell.scalar))).Has
      (retag place.cell.scalar v) := has_insertAll _ (mem_map_of_mem hv)
  unfold write at hwrite
  rw [updates_of_whole hplace (hsame.trans hwithin) hcompatible] at hwrite
  cases hwrite
  obtain ⟨-, _, -, -, -, hnearest, -⟩ := locate_eq_ok hplace
  obtain ⟨-, _, -, -, -, hnearest', -⟩ := locate_eq_ok hplace'
  have hheld := getElem?_of_getEntryLE? hnearest'
  rw [← hkey, getElem?_commit, getElem?_of_getEntryLE? hnearest, Option.map_some,
    Option.some.injEq] at hheld
  rw [← hheld]
  exact has_settle place.key (hfresh.merge _ place.cell.contents) place.cell.contents

/-! ## Copies -/

/-- What a whole cell may hold is among what is read from it. -/
theorem MayHold.read (hv : s.MayHold address scalar v) :
    ∃ values, s.read address scalar = .ok values ∧ values.Has (retag scalar v) := by
  obtain ⟨place, hplace, hwithin, hcompatible, hmem⟩ := hv
  unfold Store.read
  rw [hplace]
  exact ⟨_, if_pos ⟨hwithin, hcompatible⟩, has_insertAll _ (mem_map_of_mem hmem)⟩

/-- Copying a unit is a read and a write. -/
theorem exists_of_copyUnits_ok {source dest : Address} {unit : StorageUnit}
    {rest : List StorageUnit} {offset : Int}
    (hcopy : copyUnits source dest (unit :: rest) offset s = .ok ⟨⟩ s') :
    ∃ values middle, s.read (source.shift offset) unit.scalar = .ok values ∧
      write (dest.shift offset) values unit.scalar false s = .ok ⟨⟩ middle ∧
      copyUnits source dest rest (offset + Number.displacement unit.size) middle = .ok ⟨⟩ s' := by
  obtain ⟨seen, same, hget, hcopy⟩ := bind_eq_ok.mp hcopy
  cases hget
  cases hread : s.read (source.shift offset) unit.scalar with
  | error fault =>
    rw [hread] at hcopy
    cases hcopy
  | ok values =>
    rw [hread] at hcopy
    obtain ⟨⟨⟩, middle, hwrite, hrest⟩ := bind_eq_ok.mp hcopy
    exact ⟨values, middle, rfl, hwrite, hrest⟩

/-- Copying units to a weak object takes nothing away and adds what the source may hold. -/
theorem accumulates_copyUnits [PartialEquivBEq φ] {source dest : Address} {units : List StorageUnit}
    {offset : Int} (hweak : s.Weak dest.base)
    (hcopy : copyUnits source dest units offset s = .ok ⟨⟩ s') :
    s.Retains s' ∧ ∀ entry ∈ placed units offset, ∀ v : Value ι φ, v.isInitialized = true →
      s.MayHold (source.shift entry.2) entry.1.scalar v →
      s'.Offers (dest.shift entry.2) entry.1.scalar (retag entry.1.scalar v) := by
  induction units generalizing s offset with
  | nil =>
    cases hcopy
    exact ⟨.refl s', by simp [placed]⟩
  | cons unit rest ih =>
    obtain ⟨values, middle, hread, hwrite, hrest⟩ := exists_of_copyUnits_ok hcopy
    have hdest : s.Weak (dest.shift offset).base := hweak
    have hfirst : s.Retains middle := retains_write (.inr hdest) hwrite
    obtain ⟨hlast, hadded⟩ := ih (hfirst.weak hweak) hrest
    refine ⟨hfirst.trans hlast, ?_⟩
    intro entry hentry v hinit hv
    rcases mem_cons.mp hentry with rfl | hmem
    · -- The unit at hand: what is read there is written, and stays through the other units.
      obtain ⟨same, hsame, w, hw, hvw⟩ := hv.read
      rw [hread] at hsame
      cases hsame
      have hoffers : middle.Offers (dest.shift offset) unit.scalar w :=
        offers_write (.inr hdest) hwrite hw
      refine (hoffers.of_same hvw).retained hlast ?_
      rw [isInitialized_retag, hinit]
    · exact hadded entry hmem v hinit (hv.retained hfirst hinit)

end Write

end Store

end CoreC
