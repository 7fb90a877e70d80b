import CoreC.Proofs.Memory.Separation
import CoreC.Proofs.Value.Covering

/-! # Abstract memory covers exact memory

A store over an abstract domain and one over exact numbers go through the same requests, and
what is written to the first stands for what is written to the second. Then the two stores
stay of the same shape, and every value that a cell of the exact store may hold is one that
the same cell of the abstract store stands for. Reading keeps this, cell by cell and byte by
byte: the abstract bytes leave open no less than the exact ones.
-/

namespace CoreC

open Domain ValueSet List Store

variable {ι φ : Type}

/-- The two cells lie at the same place, and the first covers what the second holds. -/
structure Cell.Covers [Domain ι φ] [Abstraction ι φ] (t : Target) (cell : Cell ι φ)
    (exact : Cell Int Double) : Prop where
  base : cell.base = exact.base
  offset : cell.offset = exact.offset
  size : cell.size = exact.size
  scalar : cell.scalar = exact.scalar
  pred : cell.pred = exact.pred
  succ : cell.succ = exact.succ
  integral : ∃ type, exact.scalar = .int type
  contents : cell.contents.Covers t exact.contents

/-- Every unit of the layout holds an integer. -/
def Layout.OfIntegers (layout : Layout) : Prop := ∀ unit ∈ layout.units, ∃ type, unit.scalar = .int type

namespace Store

/-- The two stores have the same shape, and each cell of the first covers what the same cell
of the second holds. -/
structure Covers [Domain ι φ] [Abstraction ι φ] (s : Store ι φ) (exact : Store Int Double) :
    Prop where
  target : s.target = exact.target
  update : s.update = exact.update
  extents : s.extents = exact.extents
  next : s.next = exact.next
  heap : s.heap = exact.heap
  cells : ∀ key : Nat, Option.Rel (Cell.Covers exact.target) s.cells[key]? exact.cells[key]?

namespace Covers

variable [Domain ι φ] [Abstraction ι φ] {s : Store ι φ} {exact : Store Int Double}
  {known : ValueSet Int Double} {values : ValueSet ι φ} {address : Address}

/-! ## Bytes -/

/-- Each exact pattern is covered by some abstract one. -/
def AllCovered (patterns known : List BytePattern) : Prop :=
  ∀ q ∈ known, ∃ p ∈ patterns, BytePattern.Covers p q

theorem valueBytes (htarget : s.target = exact.target) {a : Value ι φ} {v : Value Int Double}
    (hstands : a.Stands exact.target v) (size : Nat) :
    ∃ p q, s.valueBytes size a = .ok p ∧ exact.valueBytes size v = .ok q ∧ p.Covers q := by
  cases hstands with
  | int hrepresents =>
    rw [← htarget] at hrepresents
    refine ⟨_, _, rfl, rfl, ?_⟩
    rw [← htarget]
    exact (Abstraction.toBytes_covers hrepresents).resize size
  | uninitialized scalar =>
    refine ⟨_, _, rfl, rfl, ?_⟩
    rw [htarget]
    exact (BytePattern.covers_uninitialized _).resize size

omit [Abstraction ι φ] in
theorem exists_valueBytes (s : Store ι φ) {v : Value ι φ} (hv : v.Integral) (size : Nat) :
    ∃ p, s.valueBytes size v = .ok p := by
  cases v with
  | int | uninitialized => exact ⟨_, rfl⟩
  | float | pointer | function => exact hv.elim

/-- The bytes of the members of a covering set. -/
theorem allCovered_valueBytes (htarget : s.target = exact.target)
    (hvalues : values.Covers exact.target known) (size : Nat) :
    ∃ patterns patterns', values.items.mapM (s.valueBytes size) = .ok patterns ∧
      known.items.mapM (exact.valueBytes size) = .ok patterns' ∧ AllCovered patterns patterns' := by
  obtain ⟨patterns, hpatterns⟩ := exists_mapM_ok fun v hv =>
    exists_valueBytes s (hvalues.integral v hv) size
  obtain ⟨patterns', hpatterns'⟩ := exists_mapM_ok fun v hv =>
    exists_valueBytes exact (hvalues.exact_integral v hv) size
  refine ⟨patterns, patterns', hpatterns, hpatterns', ?_⟩
  intro q hq
  obtain ⟨v, hv, hbytes⟩ := (mem_of_mapM_ok hpatterns').2 q hq
  obtain ⟨a, ha, hstands⟩ := hvalues.stands v hv
  obtain ⟨p, hp, hbytes'⟩ := (mem_of_mapM_ok hpatterns).1 a ha
  obtain ⟨p', q', hp', hq', hcovers⟩ := valueBytes htarget hstands size
  rw [hbytes'] at hp'
  rw [hbytes] at hq'
  cases hp'
  cases hq'
  exact ⟨p, hp, hcovers⟩

theorem AllCovered.slice {patterns known : List BytePattern} (hpatterns : AllCovered patterns known)
    (offset length : Nat) :
    AllCovered (patterns.map (·.slice offset length)) (known.map (·.slice offset length)) := by
  intro q hq
  obtain ⟨whole, hwhole, rfl⟩ := mem_map.mp hq
  obtain ⟨p, hp, hcovers⟩ := hpatterns whole hwhole
  exact ⟨_, mem_map_of_mem hp, hcovers.slice offset length⟩

section Decode

variable [DecidableEq ι] [BEq φ]

omit [Abstraction ι φ] in
theorem decode_int (s : Store ι φ) (type : IntType) (bytes : BytePattern) :
    s.decode (.int type) bytes = if bytes.isInitialized then
        (ofBytes φ s.target type bytes).map fun results => .ofList (results.map (.int · type))
      else .ok (.singleton (.uninitialized (.int type))) := by
  unfold decode Value.ofBytes?
  cases bytes.isInitialized <;> rfl

theorem exists_decode (s : Store ι φ) (type : IntType) (bytes : BytePattern) :
    ∃ out, s.decode (.int type) bytes = .ok out ∧ out.Integral := by
  rw [decode_int]
  split
  · obtain ⟨results, hresults⟩ := Abstraction.ofBytes_ok (ι := ι) (φ := φ) s.target type bytes
    rw [hresults]
    refine ⟨_, rfl, forall_mem_ofList fun v hv => ?_⟩
    obtain ⟨a, -, rfl⟩ := mem_map.mp hv
    trivial
  · exact ⟨_, rfl, forall_mem_singleton.mpr trivial⟩

theorem decode (htarget : s.target = exact.target) (type : IntType) {bytes known : BytePattern}
    (hbytes : bytes.Covers known) :
    ∃ out out', s.decode (.int type) bytes = .ok out ∧ exact.decode (.int type) known = .ok out' ∧
      out.Covers exact.target out' := by
  obtain ⟨out, hout, hintegral⟩ := exists_decode s type bytes
  refine ⟨out, ?_⟩
  rw [decode_int, hbytes.isInitialized_eq] at hout
  rw [decode_int, decode_int, hbytes.isInitialized_eq]
  split
  next hinit =>
    rw [if_pos hinit] at hout
    obtain ⟨results, hresults, rfl⟩ := exists_of_map_ok hout
    -- Exact bytes that were written spell one number.
    have hread : ofBytes Double exact.target type known =
        .ok [exact.target.decode type (known.resize (exact.target.intWidth type.rank)).known] :=
      Target.ofBytes_of_isExact exact.target type (hbytes.isExact hinit)
    rw [hresults, hread]
    refine ⟨_, rfl, rfl, hintegral, forall_mem_ofList (forall_mem_singleton.mpr ?_)⟩
    obtain ⟨a, ha, hrepresents⟩ := Abstraction.exists_represents hbytes hresults
    rw [htarget] at hrepresents
    exact ⟨.int a type, mem_insertAll (mem_map_of_mem ha) trivial, .int hrepresents⟩
  next hinit =>
    rw [if_neg hinit] at hout
    cases hout
    exact ⟨_, rfl, rfl, .uninitialized _⟩

end Decode

/-- New contents for the same cells, the abstract ones covering the exact ones. -/
def UpdatesCover (t : Target) (updates : List (Nat × ValueSet ι φ))
    (known : List (Nat × ValueSet Int Double)) : Prop :=
  Forall₂ (fun entry exact => entry.1 = exact.1 ∧ entry.2.Covers t exact.2) updates known

section

variable (hcovers : s.Covers exact)
include hcovers

theorem size_eq : s.cells.size = exact.cells.size := size_rel hcovers.cells

theorem accessFuel_eq (length : Nat) : s.accessFuel length = exact.accessFuel length := by
  rw [accessFuel, accessFuel, hcovers.size_eq]

variable (base : Base)

theorem isSummary_eq : s.isSummary base = exact.isSummary base := by
  unfold isSummary
  rw [hcovers.extents, hcovers.heap]

theorem isAllocated_eq : s.isAllocated base = exact.isAllocated base := by
  rw [isAllocated, isAllocated, hcovers.extents]

theorem cell (key : Nat) : Agree (Cell.Covers exact.target) (s.cell key) (exact.cell key) := by
  unfold Store.cell
  rcases cases_rel (hcovers.cells key) with ⟨hnone, hnone'⟩ | ⟨cell, known, hcell, hknown, hcover⟩
  · rw [hnone, hnone']
    exact .error _
  · rw [hcell, hknown]
    exact .ok hcover

theorem locate (address : Address) :
    Agree (fun place known => place.key = known.key ∧ place.within = known.within ∧
      place.cell.Covers exact.target known.cell) (s.locate address) (exact.locate address) :=
  locate_rel hcovers.extents hcovers.heap hcovers.cells address

theorem cellBytes {cell : Cell ι φ} {known : Cell Int Double}
    (hcell : cell.Covers exact.target known) (start length : Nat) :
    ∃ pieces pieces', s.cellBytes cell start length = .ok pieces ∧
      exact.cellBytes known start length = .ok pieces' ∧ AllCovered pieces pieces' := by
  obtain ⟨patterns, patterns', hpatterns, hpatterns', hall⟩ :=
    allCovered_valueBytes hcovers.target hcell.contents known.size
  unfold Store.cellBytes
  rw [hcell.size, hpatterns, hpatterns']
  refine ⟨_, _, rfl, rfl, ?_⟩
  intro q hq
  obtain ⟨p, hp, hpq⟩ := hall.slice start length q (mem_eraseDups.mp hq)
  exact ⟨p, mem_eraseDups.mpr hp, hpq⟩

/-- Where both stores can be read, the abstract bytes cover the exact ones. -/
theorem collectBytes {fuel key start remaining : Nat} {patterns known out out' : List BytePattern}
    (hpatterns : AllCovered patterns known)
    (hout : s.collectBytes address fuel key start remaining patterns = .ok out)
    (hout' : exact.collectBytes address fuel key start remaining known = .ok out') :
    AllCovered out out' := by
  induction fuel generalizing key start remaining patterns known with
  | zero =>
    cases remaining with
    | zero =>
      cases hout
      cases hout'
      exact hpatterns
    | succ => cases hout
  | succ fuel ih =>
    cases remaining with
    | zero =>
      cases hout
      cases hout'
      exact hpatterns
    | succ remaining =>
      obtain ⟨cell, pieces, hcell, hpieces, hrest⟩ := exists_of_collectBytes_ok hout
      obtain ⟨cell', pieces', hcell', hpieces', hrest'⟩ := exists_of_collectBytes_ok hout'
      have hsame := hcovers.cell key
      rw [hcell, hcell'] at hsame
      cases hsame with
      | ok hsame =>
        obtain ⟨found, found', hfound, hfound', hall⟩ := hcovers.cellBytes hsame start
          (min (cell'.size - start) (remaining + 1))
        rw [hsame.size] at hpieces
        rw [hsame.size, hsame.succ] at hrest
        rw [hpieces] at hfound
        rw [hpieces'] at hfound'
        cases hfound
        cases hfound'
        refine ih ?_ hrest hrest'
        intro q hq
        obtain ⟨front, hfront, hjoined⟩ := mem_flatMap.mp hq
        obtain ⟨back, hback, rfl⟩ := mem_map.mp hjoined
        obtain ⟨p, hp, hfrontCovers⟩ := hpatterns front hfront
        obtain ⟨piece, hpiece, hbackCovers⟩ := hall back hback
        refine ⟨p ++ piece, ?_, hfrontCovers.append hbackCovers⟩
        exact mem_flatMap.mpr ⟨p, hp, mem_map_of_mem hpiece⟩

/-! ## Objects and blocks -/

theorem markSummary : (s.markSummary base).Covers (exact.markSummary base) :=
  { hcovers with extents := by rw [Store.markSummary, Store.markSummary, hcovers.extents] }

theorem withHeap (heap : Heap) (generation generation' : Nat) :
    Covers { s with heap, generation } { exact with heap, generation := generation' } :=
  { hcovers with heap := rfl }

omit hcovers in
/-- Appending the units of an object of integers. -/
theorem appendCells {t : Target} {units : List StorageUnit}
    (hunits : ∀ unit ∈ units, ∃ type, unit.scalar = .int type) (base : Base)
    {cells : Std.TreeMap Nat (Cell ι φ)} {known : Std.TreeMap Nat (Cell Int Double)}
    (hcells : ∀ key : Nat, Option.Rel (Cell.Covers t) cells[key]? known[key]?)
    (next offset previous : Nat) :
    (∀ key : Nat, Option.Rel (Cell.Covers t)
      (appendCells base units cells next offset previous).1[key]?
      (appendCells base units known next offset previous).1[key]?) ∧
    (appendCells base units cells next offset previous).2 =
      (appendCells base units known next offset previous).2 := by
  induction units generalizing cells known next offset previous with
  | nil => exact ⟨hcells, rfl⟩
  | cons unit rest ih =>
    obtain ⟨hunit, hrest⟩ := forall_mem_cons.mp hunits
    rw [Tape.appendCells_cons, Tape.appendCells_cons]
    apply ih hrest
    intro key
    rw [Tape.getElem?_link, Tape.getElem?_link]
    split
    · exact .some ⟨rfl, rfl, rfl, rfl, rfl, rfl, hunit, .uninitialized _⟩
    · split
      · rcases cases_rel (hcells key) with ⟨hnone, hnone'⟩ | ⟨cell, cell', hcell, hcell', hcover⟩
        · rw [hnone, hnone']
          exact .none
        · rw [hcell, hcell']
          exact .some ⟨hcover.base, hcover.offset, hcover.size, hcover.scalar, hcover.pred, rfl,
            hcover.integral, hcover.contents⟩
      · exact hcells key

theorem allocate {layout : Layout} (hlayout : layout.OfIntegers) :
    (leaves (Store.allocate base layout) s).Covers (leaves (Store.allocate base layout) exact) := by
  unfold leaves Store.allocate
  rw [hcovers.isAllocated_eq]
  by_cases hold : exact.isAllocated base = true
  · rw [if_pos hold, if_pos hold]
    exact hcovers.markSummary base
  · by_cases hempty : layout.units.isEmpty ∨ layout.count = 0
    · rw [if_neg hold, if_neg hold, if_pos hempty, if_pos hempty]
      exact hcovers
    · rw [if_neg hold, if_neg hold, if_neg hempty, if_neg hempty]
      obtain ⟨hcells, htaken⟩ := appendCells
        (fun unit hunit => hlayout unit (layout.mem_units_of_mem_flatten hunit)) base hcovers.cells
        exact.next 0 noCell
      rw [hcovers.next]
      refine ⟨hcovers.target, hcovers.update, ?_, congrArg Prod.fst htaken, hcovers.heap, hcells⟩
      dsimp only
      rw [hcovers.extents]
      exact congrArg (fun taken => exact.extents.insert base ⟨exact.next, taken.2, false⟩) htaken

theorem malloc (site : NodeId) {layout : Layout} (hlayout : layout.OfIntegers) :
    (leaves (Store.malloc site layout) s).Covers (leaves (Store.malloc site layout) exact) := by
  have hheap := hcovers.withHeap (exact.heap.allocate site layout.size .malloc).2 s.generation
    exact.generation
  rw [leaves, leaves, malloc_eq, malloc_eq, hcovers.heap]
  split_ifs
  · exact hheap.allocate _ hlayout
  · exact hheap.markSummary _

theorem free (address : Address) :
    (leaves (Store.free address) s).Covers (leaves (Store.free address) exact) := by
  unfold leaves Store.free
  rw [hcovers.isAllocated_eq, hcovers.heap]
  cases address.base with
  | frame => exact hcovers
  | null => by_cases hzero : address.offset = 0 <;> simpa only [hzero, ↓reduceIte] using hcovers
  | heap id =>
    by_cases hinside : address.offset ≠ 0
    · simpa only [if_pos hinside] using hcovers
    · by_cases hunknown : (!exact.isAllocated (.heap id)) = true
      · simpa only [if_neg hinside, if_pos hunknown] using hcovers
      · simp only [if_neg hinside, if_neg hunknown]
        cases exact.heap.free id with
        | ok heap => exact hcovers.withHeap heap _ _
        | error fault => exact hcovers

variable [DecidableEq ι] [BEq φ]

/-! ## Reading -/

theorem read {type : IntType}
    {out : ValueSet ι φ} {out' : ValueSet Int Double} (hout : s.read address (.int type) = .ok out)
    (hout' : exact.read address (.int type) = .ok out') : out.Covers exact.target out' := by
  obtain ⟨place, hplace, hout⟩ := exists_of_bind_ok hout
  obtain ⟨place', hplace', hout'⟩ := exists_of_bind_ok hout'
  have hsame := hcovers.locate address
  rw [hplace, hplace'] at hsame
  cases hsame with
  | ok hsame =>
    obtain ⟨hkey, hwithin, hcell⟩ := hsame
    dsimp only at hout hout'
    rw [hkey, hwithin, hcell.scalar, hcovers.accessFuel_eq, hcovers.target] at hout
    split at hout
    next haligned =>
      rw [if_pos haligned] at hout'
      cases hout
      cases hout'
      exact hcell.contents.retag _
    next hunaligned =>
      rw [if_neg hunaligned] at hout'
      obtain ⟨patterns, hpatterns, hout⟩ := exists_of_bind_ok hout
      obtain ⟨patterns', hpatterns', hout'⟩ := exists_of_bind_ok hout'
      have hall : AllCovered patterns patterns' := by
        refine hcovers.collectBytes ?_ hpatterns hpatterns'
        intro q hq
        rw [mem_singleton.mp hq]
        exact ⟨[], mem_singleton_self _, .nil⟩
      obtain ⟨found, found', hfound, hfound', hcover⟩ := Covers.foldlM
        (s.decode (.int type)) (exact.decode (.int type)) patterns patterns'
        (fun p _ => exists_decode s type p) (fun q hq => by
          obtain ⟨p, hp, hpq⟩ := hall q hq
          exact ⟨p, hp, decode hcovers.target type hpq⟩)
      rw [hfound] at hout
      rw [hfound'] at hout'
      cases hout
      cases hout'
      exact hcover

/-! ## Writing -/

theorem patchCell {cell : Cell ι φ} {known : Cell Int Double}
    (hcell : cell.Covers exact.target known) (start : Nat) {patches patches' : List BytePattern}
    (hpatches : AllCovered patches patches') :
    ∃ out out', s.patchCell cell start patches = .ok out ∧
      exact.patchCell known start patches' = .ok out' ∧ out.Covers exact.target out' := by
  obtain ⟨type, htype⟩ := hcell.integral
  have hscalar : cell.scalar = .int type := hcell.scalar.trans htype
  unfold Store.patchCell
  rw [hscalar, htype, hcell.size]
  apply Covers.foldlM
  · intro a ha
    obtain ⟨p, hp⟩ := exists_valueBytes s (hcell.contents.integral a ha) known.size
    obtain ⟨out, _, hout, -, hcover⟩ := Covers.foldlM (t := exact.target)
      (fun patch => s.decode (.int type) (p.orZero.splice start patch)) (exact.decode (.int type))
      patches [] (fun patch _ => exists_decode s type _) (by simp)
    rw [hp]
    exact ⟨out, hout, hcover.integral⟩
  · intro v hv
    obtain ⟨a, ha, hstands⟩ := hcell.contents.stands v hv
    obtain ⟨p, q, hp, hq, hpq⟩ := valueBytes hcovers.target hstands known.size
    obtain ⟨out, out', hout, hout', hcover⟩ := Covers.foldlM
      (fun patch => s.decode (.int type) (p.orZero.splice start patch))
      (fun patch => exact.decode (.int type) (q.orZero.splice start patch))
      patches patches' (fun patch _ => exists_decode s type _)
      (fun patch hpatch => by
        obtain ⟨whole, hwhole, hcover⟩ := hpatches patch hpatch
        exact ⟨whole, hwhole, decode hcovers.target type (hpq.orZero.splice start hcover)⟩)
    refine ⟨a, ha, out, out', ?_, ?_, hcover⟩
    · rw [hp]
      exact hout
    · rw [hq]
      exact hout'

theorem repack (address : Address) (weak : Bool)
    {patches patches' : List BytePattern} (hpatches : AllCovered patches patches')
    (length fuel key start consumed : Nat) :
    Agree (UpdatesCover exact.target) (s.repack address weak patches length fuel key start consumed)
      (exact.repack address weak patches' length fuel key start consumed) := by
  induction fuel generalizing key start consumed with
  | zero =>
    unfold Store.repack
    split
    · exact .error _
    · exact .ok .nil
  | succ fuel ih =>
    unfold Store.repack
    split
    · exact .ok .nil
    · split
      · exact .error _
      · refine (hcovers.cell key).bind ?_
        intro cell cell' hcell
        obtain ⟨out, out', hout, hout', hcover⟩ := hcovers.patchCell hcell start
          (hpatches.slice consumed (min (cell'.size - start) (length - consumed)))
        dsimp only
        rw [hcell.size, hcell.succ, hout, hout']
        refine (ih cell'.succ 0 _).bind ?_
        intro rest rest' hrest
        exact .ok (.cons ⟨rfl, hcell.contents.merge hcover weak⟩ hrest)

theorem updates (address : Address)
    (hvalues : values.Covers exact.target known) (scalar : Scalar) (forceWeak : Bool) :
    Agree (UpdatesCover exact.target) (s.updates address values scalar forceWeak)
      (exact.updates address known scalar forceWeak) := by
  refine (hcovers.locate address).bind ?_
  rintro place place' ⟨hkey, hwithin, hcell⟩
  dsimp only
  rw [hkey, hwithin, hcell.scalar, hcovers.target, hcovers.update, hcovers.isSummary_eq,
    hcovers.accessFuel_eq]
  split
  · exact .ok (.cons ⟨rfl, hcell.contents.merge (hvalues.retag _) _⟩ .nil)
  · obtain ⟨patches, patches', hpatches, hpatches', hall⟩ :=
      allCovered_valueBytes hcovers.target hvalues (scalar.size exact.target)
    rw [hpatches, hpatches']
    exact hcovers.repack address _ hall _ _ _ _ _

omit hcovers in
theorem settle {t : Target} {updates : List (Nat × ValueSet ι φ)}
    {known : List (Nat × ValueSet Int Double)} (hupdates : UpdatesCover t updates known) (key : Nat)
    {held : ValueSet ι φ} {held' : ValueSet Int Double} (hheld : held.Covers t held') :
    (settle key updates held).Covers t (settle key known held') := by
  induction hupdates generalizing held held' with
  | nil => exact hheld
  | @cons entry entry' _ _ hentry _ ih =>
    obtain ⟨hkey, hcover⟩ := hentry
    apply ih
    rw [hkey]
    by_cases htouched : entry'.1 = key
    · -- Contents that are the same as those held need not be installed.
      have hnew : (if entry'.1 = key ∧ !held.same entry.2 then entry.2 else held) = entry.2 := by
        cases hsame : held.same entry.2 with
        | true => simp [hheld.integral.eq_of_same hsame]
        | false => simp [htouched]
      have hnew' : (if entry'.1 = key ∧ !held'.same entry'.2 then entry'.2 else held') = entry'.2 := by
        cases hsame : held'.same entry'.2 with
        | true => simp [hheld.exact_integral.eq_of_same hsame]
        | false => simp [htouched]
      rw [hnew, hnew']
      exact hcover
    · simpa [htouched] using hheld

theorem commit {updates : List (Nat × ValueSet ι φ)}
    {known : List (Nat × ValueSet Int Double)} (hupdates : UpdatesCover exact.target updates known) :
    (s.commit updates).Covers (exact.commit known) where
  target := by simpa using hcovers.target
  update := by simpa using hcovers.update
  extents := by simpa using hcovers.extents
  next := by simpa using hcovers.next
  heap := by simpa using hcovers.heap
  cells key := by
    rw [getElem?_commit, getElem?_commit, commit_target]
    rcases cases_rel (hcovers.cells key) with ⟨hnone, hnone'⟩ | ⟨cell, cell', hcell, hcell', hcover⟩
    · rw [hnone, hnone']
      exact .none
    · rw [hcell, hcell']
      exact .some ⟨hcover.base, hcover.offset, hcover.size, hcover.scalar, hcover.pred, hcover.succ,
        hcover.integral, settle hupdates key hcover.contents⟩

theorem write (address : Address)
    (hvalues : values.Covers exact.target known) (scalar : Scalar) (forceWeak : Bool) :
    (leaves (Store.write address values scalar forceWeak) s).Covers
      (leaves (Store.write address known scalar forceWeak) exact) := by
  have hagree := hcovers.updates address hvalues scalar forceWeak
  unfold leaves Store.write
  revert hagree
  generalize s.updates address values scalar forceWeak = updates
  generalize exact.updates address known scalar forceWeak = updates'
  rintro (hupdates | fault)
  · exact hcovers.commit hupdates
  · exact hcovers

theorem zeroUpdates (fuel key : Nat) :
    Agree (UpdatesCover exact.target) (s.zeroUpdates fuel key) (exact.zeroUpdates fuel key) := by
  induction fuel generalizing key with
  | zero => exact .error _
  | succ fuel ih =>
    unfold Store.zeroUpdates
    split
    · exact .ok .nil
    · refine (hcovers.cell key).bind ?_
      intro cell cell' hcell
      obtain ⟨type, htype⟩ := hcell.integral
      obtain ⟨out, out', hout, hout', hcover⟩ := decode hcovers.target type
        (BytePattern.covers_of_isExact (BytePattern.isExact_zeros cell'.size))
      unfold zeroContents
      rw [hcell.scalar, htype, hcell.size, hcell.succ]
      dsimp only
      rw [hout, hout']
      refine (ih cell'.succ).bind ?_
      intro rest rest' hrest
      exact .ok (.cons ⟨rfl, hcover⟩ hrest)

theorem zeroFill :
    (leaves (Store.zeroFill base) s).Covers (leaves (Store.zeroFill base) exact) := by
  unfold leaves Store.zeroFill
  rw [hcovers.extents, hcovers.size_eq]
  cases exact.extents[base]? with
  | none => exact hcovers
  | some extent =>
    have hagree := hcovers.zeroUpdates (exact.cells.size + 1) extent.first
    dsimp only
    revert hagree
    generalize s.zeroUpdates (exact.cells.size + 1) extent.first = updates
    generalize exact.zeroUpdates (exact.cells.size + 1) extent.first = updates'
    rintro (hupdates | fault)
    · exact hcovers.commit hupdates
    · exact hcovers

end

end Covers

section Run

variable [Domain ι φ] [Abstraction ι φ]

theorem covers_new (target : Target) (update : UpdatePolicy) (heap : HeapPolicy) :
    (new target update heap : Store ι φ).Covers (new target update heap) := by
  refine ⟨rfl, rfl, rfl, rfl, rfl, ?_⟩
  intro key
  simp [new]

/-- The same request of both stores. Objects are made of integers, and what is written to the
first store stands for what is written to the second. -/
inductive Operation.Matches (t : Target) : Operation ι φ → Operation Int Double → Prop where
  | allocate (base : Base) {layout : Layout} (hlayout : layout.OfIntegers) :
      Matches t (.allocate base layout) (.allocate base layout)
  | malloc (site : NodeId) {layout : Layout} (hlayout : layout.OfIntegers) :
      Matches t (.malloc site layout) (.malloc site layout)
  | free (address : Address) : Matches t (.free address) (.free address)
  | zeroFill (base : Base) : Matches t (.zeroFill base) (.zeroFill base)
  | write (address : Address) {values : ValueSet ι φ} {known : ValueSet Int Double}
      (hvalues : values.Covers t known) (scalar : Scalar) (forceWeak : Bool) :
      Matches t (.write address values scalar forceWeak) (.write address known scalar forceWeak)

variable [DecidableEq ι] [BEq φ]

/-- One request, granted or refused, keeps the cover. -/
theorem Covers.after {s : Store ι φ} {exact : Store Int Double} (hcovers : s.Covers exact)
    {operation : Operation ι φ} {known : Operation Int Double}
    (hmatches : operation.Matches exact.target known) :
    (operation.after s).Covers (known.after exact) := by
  cases hmatches with
  | allocate base hlayout => exact hcovers.allocate base hlayout
  | malloc site hlayout => exact hcovers.malloc site hlayout
  | free address => exact hcovers.free address
  | zeroFill base => exact hcovers.zeroFill base
  | write address hvalues scalar forceWeak => exact hcovers.write address hvalues scalar forceWeak

/-- Requests one after the other keep the cover. -/
theorem Covers.run {s : Store ι φ} {exact : Store Int Double} (hcovers : s.Covers exact)
    {operations : List (Operation ι φ)} {known : List (Operation Int Double)} {t : Target}
    (htarget : exact.target = t) (hmatches : Forall₂ (Operation.Matches t) operations known) :
    (operations.foldl Operation.after s).Covers (known.foldl Operation.after exact) ∧
      (known.foldl Operation.after exact).target = t := by
  induction hmatches generalizing s exact with
  | nil => exact ⟨hcovers, htarget⟩
  | @cons operation same _ _ hmatches _ ih =>
    subst htarget
    exact ih (hcovers.after hmatches) (same.target_after exact)

/-- **Abstract memory covers exact memory.** Run the same requests against an abstract store and
an exact one of the same target and policies, with objects made of integers, and with written
sets of which the abstract one has a member for each integer of the exact one. Wherever an
integer can then be read from both, as whole cells or byte by byte, each value that the exact
store gives is one that some value of the abstract store stands for. This holds of signs and of
bounded integers, whose known integers are in the range of their type. -/
theorem reads_covered (target : Target) (update : UpdatePolicy) (heap : HeapPolicy)
    {operations : List (Operation ι φ)} {known : List (Operation Int Double)}
    (hmatches : Forall₂ (Operation.Matches target) operations known) (address : Address)
    (type : IntType) {values : ValueSet ι φ} {exact : ValueSet Int Double}
    (hvalues : (operations.foldl Operation.after (new target update heap)).read address (.int type) =
      .ok values)
    (hexact : (known.foldl Operation.after (new target update heap)).read address (.int type) =
      .ok exact) :
    ∀ v ∈ exact.items, ∃ a ∈ values.items, a.Stands target v := by
  obtain ⟨hcovers, htarget⟩ := (covers_new target update heap).run rfl hmatches
  have hread := hcovers.read hvalues hexact
  rw [htarget] at hread
  exact hread.stands

end Run

/-- Both integers of an array get a value, and then the first one of two values in its second
byte. -/
def patchedVariable (whole low high : ι) : List (Operation ι φ) :=
  [.allocate (.frame 0 "x") ⟨[⟨4, .int .int⟩], 2⟩,
   .write ⟨.frame 0 "x", 0⟩ ⟨[.int whole .int]⟩ (.int .int) false,
   .write ⟨.frame 0 "x", 4⟩ ⟨[.int whole .int]⟩ (.int .int) false,
   .write ⟨.frame 0 "x", 1⟩ ⟨[.int low .char, .int high .char]⟩ (.int .char) false]

theorem patchedVariable_matches [Domain ι φ] [Abstraction ι φ] {t : Target}
    {whole low high : ι} {whole' low' high' : Int}
    (hwhole : Abstraction.Represents φ t .int whole whole')
    (hlow : Abstraction.Represents φ t .char low low')
    (hhigh : Abstraction.Represents φ t .char high high') :
    Forall₂ (Operation.Matches t) (patchedVariable whole low high : List (Operation ι φ))
      (patchedVariable whole' low' high') := by
  have hvalue : ValueSet.Covers t (⟨[.int whole .int]⟩ : ValueSet ι φ) ⟨[.int whole' .int]⟩ := by
    refine ⟨?_, ?_⟩
    · simp [Integral, Value.Integral]
    · simpa using Value.Stands.int hwhole
  refine .cons (.allocate _ ?_) (.cons (.write _ hvalue _ _) (.cons (.write _ hvalue _ _)
    (.cons (.write _ ⟨?_, ?_⟩ _ _) .nil)))
  · simp [Layout.OfIntegers]
  · simp [Integral, Value.Integral]
  · intro v hv
    simp only [mem_cons, not_mem_nil, or_false] at hv
    rcases hv with rfl | rfl
    · exact ⟨_, mem_cons_self, .int hlow⟩
    · exact ⟨_, mem_cons_of_mem _ mem_cons_self, .int hhigh⟩

/-- What is read of the array after the requests. -/
def patchedRead [DecidableEq ι] [BEq φ] [Domain ι φ] (operations : List (Operation ι φ)) (offset : Int) :
    Except Fault (ValueSet ι φ) :=
  (operations.foldl Operation.after (new .packed .strong .concrete)).read ⟨.frame 0 "x", offset⟩ (.int .int)

/-- The first value 2 is patched with 3 or 4. Signs cover the two integers that it may be then, and
know that the second value is positive; bounded integers know the second value. -/
theorem patchedVariable_covered :
    let exact := patchedVariable 2 3 4
    let signs : List (Operation Sign Sign) := patchedVariable .plus .plus .top
    let bounded : List (Operation Bounded Sign) := patchedVariable (.known 2) (.known 3) (.known 4)
    (Forall₂ (Operation.Matches .packed) signs exact ∧ Forall₂ (Operation.Matches .packed) bounded exact) ∧
    (patchedRead exact 0 = .ok ⟨[.int 770 .int, .int 1026 .int]⟩ ∧
      patchedRead signs 0 = .ok ⟨[.int .top .int]⟩ ∧
      ∀ v ∈ [.int 770 .int, .int 1026 .int], ∃ a ∈ [.int .top .int],
        Value.Stands .packed (a : Value Sign Sign) v) ∧
    (patchedRead exact 4 = .ok ⟨[.int 2 .int]⟩ ∧ patchedRead signs 4 = .ok ⟨[.int .plus .int]⟩ ∧
      ∀ v ∈ [.int 2 .int], ∃ a ∈ [.int .plus .int], Value.Stands .packed (a : Value Sign Sign) v) ∧
    patchedRead bounded 4 = .ok ⟨[.int (.known 2) .int]⟩ ∧
      ∀ v ∈ [.int 2 .int], ∃ a ∈ [.int (.known 2) .int], Value.Stands .packed (a : Value Bounded Sign) v := by
  intro exact signs bounded
  have hsigns : Forall₂ (Operation.Matches .packed) signs exact :=
    patchedVariable_matches (.inr rfl) (.inr rfl) (.inl rfl)
  have hbounded : Forall₂ (Operation.Matches .packed) bounded exact :=
    patchedVariable_matches (.inr ⟨rfl, by decide⟩) (.inr ⟨rfl, by decide⟩) (.inr ⟨rfl, by decide⟩)
  have hpatched : patchedRead exact 0 = .ok ⟨[.int 770 .int, .int 1026 .int]⟩ := by rfl
  have hwhole : patchedRead exact 4 = .ok ⟨[.int 2 .int]⟩ := by rfl
  have hunknown : patchedRead signs 0 = .ok ⟨[.int .top .int]⟩ := by rfl
  have hpositive : patchedRead signs 4 = .ok ⟨[.int .plus .int]⟩ := by rfl
  have hknown : patchedRead bounded 4 = .ok ⟨[.int (.known 2) .int]⟩ := by rfl
  exact ⟨⟨hsigns, hbounded⟩,
    ⟨hpatched, hunknown, reads_covered .packed .strong .concrete hsigns _ .int hunknown hpatched⟩,
    ⟨hwhole, hpositive, reads_covered .packed .strong .concrete hsigns _ .int hpositive hwhole⟩,
    hknown, reads_covered .packed .strong .concrete hbounded _ .int hknown hwhole⟩

end Store

end CoreC
