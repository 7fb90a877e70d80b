import CoreC.Proofs.Memory.Growth
import CoreC.Proofs.Memory.Numbering
import CoreC.Proofs.Memory.Typed

/-! # What operations leave alone

Where all units take bytes, objects stay where they are and as long as they are. An operation adds
objects and changes contents only where it writes. So an object shows the same image, unit by unit
from its start to its end, until something is written to it; and an object that was never written
shows the image of the one that is copied to it.
-/

namespace CoreC

open List ValueSet

variable {ι φ : Type}

namespace Store

/-- Objects lie apart from each other, and those on the heap are numbered blocks. -/
structure Regular (policy : HeapPolicy) (s : Store ι φ) : Prop extends Sound s where
  policy_eq : s.heap.policy = policy
  numbered : ∀ {id extent}, s.extents[Base.heap id]? = some extent → id < s.heap.blocks.size

/-- Objects are where they were, contents changed only where something was written, and other objects
may have been added. -/
structure Spares (added : Base → Prop) (written : Base → Nat → Prop) (s s' : Store ι φ) : Prop where
  cells : ∀ {key : Nat} {cell : Cell ι φ}, s.cells[key]? = some cell → ∃ contents,
    s'.cells[key]? = some { cell with contents } ∧ (contents = cell.contents ∨ written cell.base cell.offset)
  sizes : ∀ {base size}, s.size? base = some size → s'.size? base = some size
  others : ∀ {base}, s.size? base = none → s'.size? base = none ∨ added base

variable {s s' middle : Store ι φ} {base : Base} {policy : HeapPolicy} {added : Base → Prop}
  {written : Base → Nat → Prop}

theorem Spares.of_eq (hcells : s'.cells = s.cells) (hsizes : ∀ base, s'.size? base = s.size? base) :
    s.Spares added written s' :=
  ⟨fun hcell => ⟨_, hcells ▸ hcell, .inl rfl⟩, fun hsome => (hsizes _).trans hsome, fun hnone =>
    .inl ((hsizes _).trans hnone)⟩

theorem Spares.refl (s : Store ι φ) : s.Spares added written s := .of_eq rfl fun _ => rfl

theorem Spares.trans (hfirst : s.Spares added written middle) (hsecond : middle.Spares added written s') :
    s.Spares added written s' where
  cells hcell := by
    obtain ⟨_, hcell, hsame⟩ := hfirst.cells hcell
    obtain ⟨contents, hcell, hsame'⟩ := hsecond.cells hcell
    exact ⟨contents, hcell, hsame'.elim (fun heq => heq ▸ hsame) .inr⟩
  sizes hsize := hsecond.sizes (hfirst.sizes hsize)
  others hnone := (hfirst.others hnone).elim hsecond.others .inr

theorem Spares.mono {added' : Base → Prop} {written' : Base → Nat → Prop} (hspares : s.Spares added written s')
    (hadded : ∀ base, added base → added' base) (hwritten : ∀ base offset, written base offset → written' base offset) :
    s.Spares added' written' s' where
  cells hcell := by
    obtain ⟨contents, hcell, hsame⟩ := hspares.cells hcell
    exact ⟨contents, hcell, hsame.imp_right (hwritten _ _)⟩
  sizes := hspares.sizes
  others hnone := (hspares.others hnone).imp_right (hadded _)

/-! ## Images -/

/-- From the offset to its end the object has the units with the contents. -/
def Shows (s : Store ι φ) (base : Base) : Nat → List (StorageUnit × ValueSet ι φ) → Prop
  | offset, [] => s.size? base = some offset
  | offset, (unit, contents) :: rest =>
    (∃ key pred succ : Nat, s.cells[key]? = some ⟨base, offset, unit.size, unit.scalar, contents, pred, succ⟩) ∧
      s.Shows base (offset + unit.size) rest

variable {offset : Nat} {image : List (StorageUnit × ValueSet ι φ)}

/-- An object keeps its units, and its image if it is not written. -/
theorem Spares.shows (hspares : s.Spares added written s') (hshows : s.Shows base offset image) :
    ∃ image', s'.Shows base offset image' ∧ image'.map Prod.fst = image.map Prod.fst ∧
      ((∀ later ≥ offset, ¬written base later) → image' = image) := by
  induction image generalizing offset with
  | nil => exact ⟨[], hspares.sizes hshows, rfl, fun _ => rfl⟩
  | cons entry rest ih =>
    obtain ⟨⟨key, pred, succ, hcell⟩, hrest⟩ := hshows
    obtain ⟨contents, hcell, hsame⟩ := hspares.cells hcell
    obtain ⟨image', hshows, hunits, hexact⟩ := ih hrest
    refine ⟨(entry.1, contents) :: image', ⟨⟨key, pred, succ, hcell⟩, hshows⟩, by simp [hunits], fun hkept => ?_⟩
    rw [hexact fun later hlater => hkept later (by omega), hsame.resolve_right (hkept offset (Nat.le_refl _))]

/-- The image of units that were never written. -/
def blank (units : List StorageUnit) : List (StorageUnit × ValueSet ι φ) :=
  units.map fun unit => (unit, .singleton (.uninitialized unit.scalar))

theorem shows_appendCells {units : List StorageUnit} (hpos : ∀ unit ∈ units, 0 < unit.size)
    {cells : Std.TreeMap Nat (Cell ι φ)} {next previous : Nat} (hprevious : previous < next)
    (hcells : s.cells = (appendCells base units cells next offset previous).1)
    (hsize : s.size? base = some (offset + StorageUnit.total units)) : s.Shows base offset (blank units) := by
  induction units generalizing cells next offset previous with
  | nil => exact hsize
  | cons unit rest ih =>
    have hunit := hpos unit mem_cons_self
    rw [Tape.appendCells_cons] at hcells
    refine ⟨?_, ih (fun other hother => hpos other (mem_cons_of_mem _ hother)) (by omega) hcells
      (hsize.trans (congrArg some (Nat.add_assoc offset unit.size _).symm))⟩
    -- The units behind change only the link to them.
    have hfirst := getElem?_appendCells base rest (Tape.link cells base unit next offset previous)
      (offset + unit.size) next (show next < next + unit.size by omega)
    have hlinked := Tape.getElem?_link cells base unit next offset previous next
    rw [if_pos rfl, if_neg (by omega)] at hlinked
    rw [← hcells, hlinked] at hfirst
    split at hfirst <;> exact ⟨next, _, _, hfirst⟩

theorem shows_addObject (hnext : 0 < s.next) {units : List StorageUnit} (hpos : ∀ unit ∈ units, 0 < unit.size) :
    (s.addObject base units).Shows base 0 (blank units) :=
  shows_appendCells hpos hnext rfl (by rw [size?_addObject, if_pos rfl, Nat.zero_add])

/-! ## Operations -/

/-- Where all blocks are new, memory stays as it is and objects are added. -/
def Augments (s s' : Store ι φ) : Prop :=
  s.Regular .concrete → s'.Regular .concrete ∧ s.Spares (fun _ => True) (fun _ _ => False) s'

theorem augmentation : Evolution (Augments (ι := ι) (φ := φ)) := .under _ ⟨.refl, .trans⟩

/-- What is written to objects that were not there changes no cell. -/
theorem Sound.spares (hs : s.Sound) (hspares : s.Spares added written s')
    (hwritten : ∀ base offset, written base offset → s.size? base = none) : s.Spares added (fun _ _ => False) s' where
  cells hcell := by
    obtain ⟨contents, hcell', hsame⟩ := hspares.cells hcell
    refine ⟨contents, hcell', .inl (hsame.resolve_right fun htouched => ?_)⟩
    obtain ⟨extent, hextent, -⟩ := hs.ordered.placed hcell
    simpa [size?, hextent] using hwritten _ _ htouched
  sizes := hspares.sizes
  others := hspares.others

theorem Regular.augments_next
    (hact : s.Regular .concrete → s'.Regular .concrete ∧ s.Spares (fun _ => True)
      (fun base _ => base = .heap s.heap.blocks.size) s') :
    s.Augments s' := by
  intro hs
  obtain ⟨hs', hspares⟩ := hact hs
  refine ⟨hs', hs.toSound.spares hspares ?_⟩
  rintro _ - rfl
  cases hextent : s.extents[Base.heap s.heap.blocks.size]? with
  | none => simp [size?, hextent]
  | some extent => exact absurd (hs.numbered hextent) (Nat.lt_irrefl _)

variable [DecidableEq ι] [BEq φ]

theorem Regular.commit (hs : s.Regular policy) {updates : List (Nat × ValueSet ι φ)}
    (hupdates : ∀ entry ∈ updates, ∀ cell, s.cells[entry.1]? = some cell → written cell.base cell.offset) :
    (s.commit updates).Regular policy ∧ s.Spares added written (s.commit updates) := by
  have hsize (base : Base) : (s.commit updates).size? base = s.size? base := by rw [size?, commit_extents, size?]
  refine ⟨⟨hs.toSound.commit updates, by rw [commit_heap, hs.policy_eq], fun hextent => ?_⟩, fun {key cell} hcell => ?_,
    fun hsome => (hsize _).trans hsome, fun hnone => .inl ((hsize _).trans hnone)⟩
  · rw [commit_extents] at hextent
    rw [commit_heap]
    exact hs.numbered hextent
  · refine ⟨_, by rw [getElem?_commit, hcell]; rfl, ?_⟩
    by_cases htouched : written cell.base cell.offset
    · exact .inr htouched
    · refine .inl (settle_of_forall_ne (fun entry hentry hkey => htouched ?_) _)
      exact hupdates entry hentry cell (hkey ▸ hcell)

variable [Domain ι φ]

/-- Where units take bytes, operations spare all that they do not write to. -/
theorem sparing (policy : HeapPolicy) (added : Base → Prop) (written : Base → Nat → Prop) :
    Allows (fun unit => 0 < unit.size)
      (fun s s' : Store ι φ => s.Regular policy → s'.Regular policy ∧ s.Spares added written s')
      (fun _ address _ _ _ => ∀ offset, written address.base offset)
      fun s base => added base ∧ ∀ id, base = .heap id → id < s.heap.blocks.size where
  toEvolution := .under _ ⟨.refl, .trans⟩
  recorded s site size kind hs := by
    refine ⟨⟨hs.toSound.withHeap _ s.generation, (s.heap.policy_allocate ..).trans hs.policy_eq,
      fun hextent => ?_⟩, .of_eq rfl fun _ => rfl⟩
    exact Nat.lt_of_lt_of_le (hs.numbered hextent) (s.heap.size_le_allocate site size kind)
  freed {s id heap} hfree hs := by
    obtain ⟨hpolicy, -, hsize⟩ := Heap.free_records hfree
    exact ⟨⟨hs.toSound.withHeap heap _, hpolicy.trans hs.policy_eq, fun hextent => hsize ▸ hs.numbered hextent⟩,
      .of_eq rfl fun _ => rfl⟩
  summary s base hs := by
    refine ⟨⟨hs.toSound.markSummary base, hs.policy_eq, fun hextent => ?_⟩, .of_eq rfl (s.size?_markSummary base)⟩
    obtain ⟨old, hold, -⟩ := exists_of_extents_markSummary hextent
    exact hs.numbered hold
  object {s base units} hbase hnew hunits hpos hs := by
    have hsize := s.size?_addObject base units
    refine ⟨⟨hs.toSound.addObject hnew hunits hpos, hs.policy_eq, fun {id extent} hextent => ?_⟩,
      fun hcell => ⟨_, hs.toSound.getElem?_addObject base units hcell, .inl rfl⟩,
      fun {other size} hsome => ?_, fun {other} hnone => ?_⟩
    · change (s.extents.insert base _)[Base.heap id]? = some extent at hextent
      simp only [Std.TreeMap.getElem?_insert, Std.compare_eq_iff_eq] at hextent
      split at hextent
      next hsame => exact hbase.2 id hsame
      next => exact hs.numbered hextent
    · rw [hsize, if_neg]
      · exact hsome
      · rintro rfl
        simp [size?, hnew] at hsome
    · rw [hsize]
      split
      next hsame => exact .inr (hsame ▸ hbase.1)
      next => exact .inl hnone
  written {s _ _ _ _ updates} hwritten hupdates hs := by
    refine hs.commit fun entry hentry cell hcell => ?_
    obtain ⟨touched, -, htouched, hbase, -⟩ := hs.toSound.of_mem_updates hupdates entry hentry
    cases hcell.symm.trans htouched
    exact hbase ▸ hwritten _

/-- Clearing an object writes to it. -/
theorem spares_zeroFill (hwritten : ∀ offset, written base offset) :
    Keeps (fun s s' : Store ι φ => s.Regular policy → s'.Regular policy ∧ s.Spares added written s') (zeroFill base) :=
  (sparing policy added written).zeroFill base fun hextent hupdates hs =>
    hs.commit fun entry hentry cell hcell =>
      hs.toSound.of_mem_zeroUpdates hextent hupdates entry hentry cell hcell ▸ hwritten _

theorem augments_literal (site : NodeId) (text : List UInt8) : Keeps Augments
    (literal site text : StoreM ι φ Address) := by
  refine fun s => Regular.augments_next fun hs => ?_
  have hR := sparing (ι := ι) (φ := φ) .concrete (fun _ => True) fun base _ => base = .heap s.heap.blocks.size
  have hunowned : s.heap.owned? site .literal = none := by simp [Heap.owned?, hs.policy_eq]
  rw [leaves_congr (literal_of_unowned hunowned text)]
  refine hR.trans (hR.recorded s site (text.length + 1) .literal)
    (Keeps.bind_at hR.toEvolution (hR.allocate ⟨trivial, ?_⟩ ?_) fun _ => ?_) hs
  · rintro _ ⟨⟩
    simp [Heap.allocate, hunowned]
  · simpa using s.target.intWidth_pos .char
  · exact .bind hR.toEvolution (hR.writeChars _ (fun _ _ _ _ => rfl) _ _ _) fun _ => .pure hR.toEvolution _

/-- A block that is cleared when it is handed out. -/
theorem augments_calloc (site : NodeId) {layout : Layout} (hlayout : ∀ unit ∈ layout.units, 0 < unit.size) :
    Keeps Augments (do let address ← malloc site layout; zeroFill address.base : StoreM ι φ PUnit) := by
  refine fun s => Regular.augments_next fun hs => ?_
  have hR := sparing (ι := ι) (φ := φ) .concrete (fun _ => True) fun base _ => base = .heap s.heap.blocks.size
  have hmalloc := hR.malloc (fun _ id hid => ⟨trivial, fun _ h => Base.heap.inj h ▸ hid⟩) site hlayout s
  rw [leaves_bind]
  cases hrun : malloc site layout s with
  | error fault middle => exact (leaves_of_error hrun ▸ hmalloc) hs
  | ok address middle =>
    refine hR.trans (leaves_of_ok hrun ▸ hmalloc) (spares_zeroFill (fun _ => ?_) middle) hs
    rw [malloc_of_unowned (by simp [Heap.owned?, hs.policy_eq]), allocate] at hrun
    split_ifs at hrun <;> cases hrun <;> rfl

end Store

/-! ## Copies -/

variable [DecidableEq ι] [BEq φ] [Domain ι φ] {t : Target} {scalar : Scalar}

/-- What fits a class looks the same through it. -/
theorem ValueSet.Fits.retag {values : ValueSet ι φ} (hvalues : values.Fits t scalar) :
    ofList (values.items.map (Store.retag scalar)) = values := by
  have hsame : values.items.map (Store.retag scalar) = values.items := by
    refine (map_congr_left fun v hv => ?_).trans (map_id _)
    cases hvalues.forall_mem v hv <;> rfl
  rw [hsame]
  exact hvalues.tidy

theorem Scalar.compatible_self (scalar : Scalar) : scalar.compatible scalar = true := by
  cases scalar <;> simp [Scalar.compatible]

namespace Store

variable {s s' : Store ι φ} {key : Nat} {cell : Cell ι φ} {policy : HeapPolicy} {offset : Nat}
  {image : List (StorageUnit × ValueSet ι φ)}

omit [DecidableEq ι] [BEq φ] [Domain ι φ] in
/-- A cell is found where it begins. -/
theorem Sound.locate_cell (hs : s.Sound) (husable : s.Usable cell.base) (hcell : s.cells[key]? = some cell) :
    s.locate ⟨cell.base, cell.offset⟩ = .ok ⟨key, cell, 0⟩ := by
  obtain ⟨extent, hextent, hplaced⟩ := hs.ordered.placed hcell
  have hsize := hs.solid hcell
  have hend := hplaced.end_le
  have hoffset := hplaced.offset_eq
  have hnearest := getEntryLE?_eq_some hcell (Nat.le_refl key) fun _ _ _ hle => hle
  rw [locate_of_usable husable, hextent]
  dsimp only
  rw [if_neg (by omega), Int.toNat_natCast, ← hoffset, hnearest]
  simp

/-- A unit is copied to a cell that was never written. -/
theorem Sound.copyUnit (hs : s.Sound) (hcell : s.cells[key]? = some cell) (husable : s.Usable cell.base)
    (hfits : cell.contents.Fits s.target cell.scalar) {key' : Nat} {held : Cell ι φ}
    (hheld : s.cells[key']? = some held)
    (husable' : s.Usable held.base) (hscalar : held.scalar = cell.scalar)
    (hblank : held.contents = .singleton (.uninitialized held.scalar)) :
    s.read ⟨cell.base, cell.offset⟩ cell.scalar = .ok cell.contents ∧
      s.updates ⟨held.base, held.offset⟩ cell.contents cell.scalar false = .ok [(key', cell.contents)] := by
  have hmerge weak : merge weak held.contents cell.contents = cell.contents := by
    simp [merge, hblank, allUninitialized, ValueSet.singleton, Value.isInitialized]
  constructor
  · rw [read, hs.locate_cell husable hcell]
    change (if _ then Except.ok _ else _) = _
    rw [if_pos ⟨rfl, cell.scalar.compatible_self⟩, hfits.retag]
  · rw [updates, hs.locate_cell husable' hheld]
    change (if _ then Except.ok _ else _) = _
    dsimp only
    rw [if_pos ⟨rfl, hscalar ▸ cell.scalar.compatible_self, by rw [hscalar]⟩, hscalar, hfits.retag, hmerge]

omit [Domain ι φ] in
theorem settle_blank (contents : ValueSet ι φ) :
    settle key [(key, contents)] (.singleton (.uninitialized scalar)) = contents := by
  unfold settle settle
  split
  next => rfl
  next hsame =>
    have hplain : (.singleton (.uninitialized scalar) : ValueSet ι φ).Plain := by
      simp [Plain, ValueSet.singleton, Value.IsPlain]
    exact hplain.eq_of_same (by simpa using hsame)

/-- A variable that was never written shows what is copied to it, and nothing else changes. -/
theorem Regular.copyUnits {holder frame : FrameId} {name copy : String}
    (hne : Base.frame holder name ≠ .frame frame copy)
    (hs : s.Regular policy) (htyped : s.Typed) (hsource : s.Shows (.frame holder name) offset image)
    (hdest : s.Shows (.frame frame copy) offset (blank (image.map Prod.fst)))
    (hsizes : ∀ entry ∈ image, entry.1.size < 2 ^ 63)
    {done : PUnit} (hrun : Store.copyUnits ⟨.frame holder name, 0⟩ ⟨.frame frame copy, 0⟩
      (image.map Prod.fst) offset s = .ok done s') :
    s'.Regular policy ∧ s'.Shows (.frame frame copy) offset image ∧
      s.Spares (fun _ => False) (fun base later => base = .frame frame copy ∧ offset ≤ later) s' := by
  induction image generalizing s offset with
  | nil =>
    cases hrun
    exact ⟨hs, hdest, .refl _⟩
  | cons entry rest ih =>
    obtain ⟨unit, contents⟩ := entry
    obtain ⟨hsize, hsizes⟩ := forall_mem_cons.mp hsizes
    obtain ⟨⟨key, pred, succ, hcell⟩, hsource⟩ := hsource
    obtain ⟨⟨key', pred', succ', hheld⟩, hdest⟩ := hdest
    have hlt : offset < offset + unit.size := Nat.lt_add_of_pos_right (hs.solid hheld)
    obtain ⟨hread, hupdates⟩ := hs.toSound.copyUnit hcell trivial (htyped hcell) hheld trivial rfl rfl
    have hshift (base : Base) : Address.shift ⟨base, 0⟩ offset = ⟨base, offset⟩ := by simp [Address.shift]
    have hstep := get_bind_eq_ok.mp hrun
    rw [hshift, hread, hshift] at hstep
    obtain ⟨_, middle, hwrite, hrun⟩ := bind_eq_ok.mp hstep
    unfold Store.write at hwrite
    rw [hupdates] at hwrite
    cases hwrite
    have hentry {entry} (hentry : entry ∈ [(key', contents)]) {cell}
        (hcell : s.cells[entry.1]? = some cell) :
        entry.2 = contents ∧ cell.base = .frame frame copy ∧ cell.offset = offset ∧ cell.scalar = unit.scalar := by
      cases mem_singleton.mp hentry
      cases hheld.symm.trans hcell
      exact ⟨rfl, rfl, rfl, rfl⟩
    -- One cell of the copy is written, and the objects are as before from there on.
    obtain ⟨hs', hspares⟩ : (s.commit [(key', contents)]).Regular policy ∧ s.Spares (fun _ => False)
        (fun base later => base = .frame frame copy ∧ later = offset) (s.commit [(key', contents)]) :=
      hs.commit fun entry hmem cell hcell => ⟨(hentry hmem hcell).2.1, (hentry hmem hcell).2.2.1⟩
    have htyped' : (s.commit [(key', contents)]).Typed := Typed.commit htyped fun entry hmem cell hcell' => by
      obtain ⟨rfl, -, -, hscalar⟩ := hentry hmem hcell'
      exact hscalar ▸ htyped hcell
    obtain ⟨_, hsource, -, hsame⟩ := hspares.shows hsource
    obtain ⟨_, hdest, -, hsame'⟩ := hspares.shows hdest
    rw [hsame fun _ _ h => hne h.1] at hsource
    rw [hsame' fun _ hlater h => Nat.ne_of_gt (Nat.lt_of_lt_of_le hlt hlater) h.2] at hdest
    have hnext : (offset : Int) + Number.displacement unit.size = (offset + unit.size : Nat) := by
      rw [Number.displacement, signedWord_of_lt hsize, Int.natCast_add]
    dsimp only at hrun
    rw [hnext] at hrun
    obtain ⟨hs', hshows, hlater⟩ := ih hs' htyped' hsource hdest hsizes hrun
    refine ⟨hs', ⟨⟨key', pred', succ', ?_⟩, hshows⟩, .trans (hspares.mono (fun _ => id) ?_)
      (hlater.mono (fun _ => id) ?_)⟩
    · obtain ⟨final, hfinal, hsame⟩ := hlater.cells (show (s.commit _).cells[key']? = some _ by
        rw [getElem?_commit, hheld, Option.map_some, settle_blank])
      rwa [hsame.resolve_right fun h => Nat.not_le.mpr hlt h.2] at hfinal
    · exact fun _ _ h => ⟨h.1, Nat.le_of_eq h.2.symm⟩
    · exact fun _ _ h => ⟨h.1, by omega⟩

end Store

end CoreC
