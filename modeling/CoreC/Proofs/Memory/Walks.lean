import CoreC.Domain.Exact
import CoreC.Proofs.Memory.Chain
import CoreC.Proofs.Memory.Nesting
import Mathlib.Data.List.Perm.Subperm

/-! # Walks through an object

Clearing an object and accessing several of its cells follow the links from cell to cell. These
walks end with the last cell if the cells are all different. They are so exactly if every unit but
the last takes bytes: cells are found by their first byte, and a unit without bytes shares its
first byte with the next one. Only unions can take no bytes, those whose members take none.
-/

namespace CoreC

open Resolver List Std Layout

variable {units : List StorageUnit} {depth : Nat}

/-! ## Units that take bytes -/

variable {type : CType}

theorem Resolver.layout_cases {t : Target} {r : Resolver} {layout' : Layout}
    (hlayout : layout t r type = .ok layout') :
    (∃ name, type.pointers = 0 ∧ type.base = .struct name ∧ r.structUnits name = .ok layout'.units) ∨
      (∃ name unit, type.pointers = 0 ∧ type.base = .union name ∧ r.unionUnit name = .ok unit ∧
        layout'.units = [unit]) ∨
      ∃ scalar', layout'.units = [⟨scalar'.size t, scalar'⟩] := by
  obtain ⟨units, hunits, rfl⟩ := exists_of_map_ok hlayout
  unfold elementUnits at hunits
  split at hunits
  next name hpointers hbase => exact .inl ⟨name, hpointers, hbase, hunits⟩
  next name hpointers hbase =>
    obtain ⟨unit, hunit, rfl⟩ := exists_of_map_ok hunits
    exact .inr (.inl ⟨name, unit, hpointers, hbase, hunit, rfl⟩)
  next =>
    obtain ⟨scalar', -, rfl⟩ := exists_of_map_ok hunits
    exact .inr (.inr ⟨scalar', rfl⟩)

namespace Layouts

variable {l : Layouts}

/-- The members of a union that an object of the type is, or that it holds in members of structs.
An array of length zero holds nothing. -/
inductive Overlays (l : Layouts) : CType → List Member → Prop where
  | struct {type : CType} {name : String} {fields : List Member} (hpointers : type.pointers = 0)
      (hbase : type.base = .struct name) (haggregate : l.aggregate name = .ok ⟨fields, true⟩) :
      Overlays l type fields
  | union {type : CType} {name : String} {aggregate : Aggregate} (hpointers : type.pointers = 0)
      (hbase : type.base = .union name) (haggregate : l.aggregate name = .ok aggregate) :
      Overlays l type aggregate.fields
  | member {type : CType} {name : String} {fields members : List Member} {field : Member}
      (hpointers : type.pointers = 0) (hbase : type.base = .struct name)
      (haggregate : l.aggregate name = .ok ⟨fields, false⟩) (hfield : field ∈ fields)
      (hlength : field.type.length? ≠ some 0) (hmembers : Overlays l field.type members) : Overlays l type members

/-- Every union of an object of the type has a member that takes bytes. -/
def Filled (l : Layouts) (type : CType) : Prop :=
  ∀ members, l.Overlays type members → ∃ field ∈ members, ∃ size, l.sizeOf field.type = .ok size ∧ 0 < size

variable {layout : Layout}

theorem layout_of_le {further : Nat} (hle : depth ≤ further)
    (hlayout : (l.resolver depth).layout l.target type = .ok layout) :
    (l.resolver further).layout l.target type = .ok layout := by
  induction hle with
  | refl => exact hlayout
  | step _ ih => exact (l.extends_succ _).layout ih

/-- A union takes as many bytes as each of its members. -/
theorem pos_of_overlay (hle : depth ≤ l.aggregates.length + 1) {name : String}
    {members : List Member} {unit : StorageUnit}
    (hunit : (l.resolver depth).overlay l.target name members = .ok unit)
    (hmembers : ∃ field ∈ members, ∃ size, l.sizeOf field.type = .ok size ∧ 0 < size) :
    0 < unit.size := by
  obtain ⟨field, hfield, size, hsize, hpos⟩ := hmembers
  obtain ⟨ms, largest, hms, hlargest, -, htotal⟩ := (l.regular depth).exists_of_overlay_eq_ok hunit
  have hmeasured : ∀ field ∈ members, ∃ m ∈ ms, (l.resolver depth).measure l.target field = .ok m :=
    forall_of_forall₂ hms.flip fun m hm _ hmeasure => ⟨m, hm, hmeasure⟩
  obtain ⟨m, hm, hmeasure⟩ := hmeasured field hfield
  have hlayout : l.layout field.type = .ok m.layout := layout_of_le hle (measure_eq_ok.mp hmeasure).2
  rw [sizeOf, hlayout] at hsize
  cases hsize
  have hunits : m.layout.units ≠ [] := by
    intro hempty
    rw [size, stride, hempty] at hpos
    simp [StorageUnit.total] at hpos
  have hmember := hlargest m hm hunits
  omega

/-- No struct is laid out without units. -/
theorem units_ne_nil (hlayout : l.layout type = .ok layout) : layout.units ≠ [] := by
  rcases layout_cases hlayout with ⟨name, -, -, hok⟩ | ⟨name, unit, -, -, -, hunits⟩ | ⟨scalar', hunits⟩
  · obtain ⟨aggregate, -, hok⟩ := exists_of_bind_ok hok
    split at hok
    · obtain ⟨unit, -, hunits⟩ := exists_of_map_ok hok
      simp [← hunits]
    · obtain ⟨ms, -, hunits, heq⟩ := placeStruct_eq_ok.mp hok
      rw [heq, ← length_pos_iff, length_padLast]
      exact length_pos_iff.mpr hunits
  · simp [hunits]
  · simp [hunits]

/-- If every union of a type has a member that takes bytes, all units of the type take bytes. -/
theorem Filled.pos (hle : depth ≤ l.aggregates.length + 1) (hfilled : l.Filled type)
    (hlayout : (l.resolver depth).layout l.target type = .ok layout) :
    ∀ unit ∈ layout.units, 0 < unit.size := by
  induction depth generalizing type layout with
  | zero =>
    rcases layout_cases hlayout with ⟨name, -, -, hok⟩ | ⟨name, unit, -, -, hok, -⟩ | ⟨scalar', hunits⟩
    · exact absurd hok (l.refuse_ne_ok _ _)
    · exact absurd hok (l.refuse_ne_ok _ _)
    · simpa [hunits] using Nat.pos_of_isPowerOfTwo (isPowerOfTwo_size l.target scalar')
  | succ depth ih =>
    have hle' : depth ≤ l.aggregates.length + 1 := by omega
    rcases layout_cases hlayout with ⟨name, hpointers, hbase, hok⟩ |
      ⟨name, unit, hpointers, hbase, hok, hunits⟩ |
      ⟨scalar', hunits⟩
    · obtain ⟨⟨fields, isUnion⟩, haggregate, hok⟩ := exists_of_bind_ok hok
      cases isUnion with
      | true =>
        obtain ⟨unit, hunit, hunits⟩ := exists_of_map_ok hok
        simpa [← hunits] using pos_of_overlay hle' hunit (hfilled _ (.struct hpointers hbase haggregate))
      | false =>
        obtain ⟨ms, hms, -, hunits⟩ := placeStruct_eq_ok.mp hok
        -- Only members that are placed count: an array of length zero has no units to look at.
        have hmembers : ∀ m ∈ ms, ∀ unit ∈ m.layout.flatten, 0 < unit.size := by
          refine forall_of_forall₂ hms fun field hfield m hm unit hunit => ?_
          have hmember := (measure_eq_ok.mp hm).2
          have hlength : field.type.length? ≠ some 0 := by
            intro hzero
            obtain ⟨units, -, heq⟩ := exists_of_map_ok hmember
            simp [← heq, hzero, Layout.flatten] at hunit
          have hfield' : l.Filled field.type := fun members hoverlays =>
            hfilled members (.member hpointers hbase haggregate hfield hlength hoverlays)
          exact ih hle' hfield' hmember unit (m.layout.mem_units_of_mem_flatten hunit)
        rw [hunits]
        intro unit hunit
        obtain ⟨padded, hpadded, -, hgrown⟩ := exists_of_mem_padLast _ hunit
        obtain ⟨m, hm, old, hold, -, hgrown'⟩ := exists_of_mem_pack hpadded
        have hpos := hmembers m hm old hold
        omega
    · obtain ⟨aggregate, haggregate, hok⟩ := exists_of_bind_ok hok
      simpa [hunits] using pos_of_overlay hle' hok (hfilled _ (.union hpointers hbase haggregate))
    · simpa [hunits] using Nat.pos_of_isPowerOfTwo (isPowerOfTwo_size l.target scalar')

end Layouts

namespace Store

variable {ι φ : Type} {s : Store ι φ} {key : Nat} {cells : List (Nat × Cell ι φ)}

/-! ## Walks along a chain -/

/-- A walk that is given more than some number of steps does not use the rest of them. -/
def EndsWithin {α : Type} (steps : Nat) (walk : Nat → α) : Prop :=
  ∀ fuel, steps < fuel → walk fuel = walk (steps + 1)

theorem EndsWithin.mono {α : Type} {steps more : Nat} {walk : Nat → α} (hends : EndsWithin steps walk)
    (hle : steps ≤ more) : EndsWithin more walk := fun fuel hfuel =>
  (hends fuel (Nat.lt_of_le_of_lt hle hfuel)).trans (hends (more + 1) (Nat.lt_succ_of_le hle)).symm

section Walk

variable [DecidableEq ι] [BEq φ] [Domain ι φ]

theorem Chain.zeroUpdates (hchain : s.Chain key cells) : EndsWithin cells.length (s.zeroUpdates · key) := by
  intro fuel hfuel
  induction hchain generalizing fuel with
  | nil =>
    obtain _ | fuel := fuel
    · omega
    rfl
  | @cons key cell rest hkey hcell _ ih =>
    obtain _ | fuel := fuel
    · omega
    have hrest : s.zeroUpdates fuel cell.succ = s.zeroUpdates (rest.length + 1) cell.succ :=
      ih fuel (Nat.lt_of_succ_lt_succ hfuel)
    simp only [Store.zeroUpdates, if_neg hkey, Store.cell, hcell, length_cons, bind, Except.bind, hrest]

omit [DecidableEq ι] [BEq φ] in
theorem Chain.collectBytes (hchain : s.Chain key cells) (address : Address) (within remaining : Nat)
    (patterns : List BytePattern) :
    EndsWithin cells.length (s.collectBytes address · key within remaining patterns) := by
  intro fuel hfuel
  induction hchain generalizing fuel within remaining patterns with
  | nil =>
    obtain _ | fuel := fuel
    · omega
    cases remaining <;> rfl
  | @cons key cell rest hkey hcell _ ih =>
    obtain _ | fuel := fuel
    · omega
    have hrest remaining patterns : s.collectBytes address fuel cell.succ 0 remaining patterns =
          s.collectBytes address (rest.length + 1) cell.succ 0 remaining patterns :=
      ih 0 remaining patterns fuel (Nat.lt_of_succ_lt_succ hfuel)
    cases remaining with
    | zero => rfl
    | succ remaining =>
      simp only [Store.collectBytes, if_neg hkey, Store.cell, hcell, length_cons, bind, Except.bind, hrest]

theorem Chain.repack (hchain : s.Chain key cells) (address : Address) (weak : Bool) (patches : List BytePattern)
    (length within consumed : Nat) :
    EndsWithin cells.length (s.repack address weak patches length · key within consumed) := by
  intro fuel hfuel
  induction hchain generalizing fuel within consumed with
  | nil =>
    obtain _ | fuel := fuel
    · omega
    rfl
  | @cons key cell rest hkey hcell _ ih =>
    obtain _ | fuel := fuel
    · omega
    have hrest consumed : s.repack address weak patches length fuel cell.succ 0 consumed =
        s.repack address weak patches length (rest.length + 1) cell.succ 0 consumed :=
      ih 0 consumed fuel (Nat.lt_of_succ_lt_succ hfuel)
    simp only [Store.repack, if_neg hkey, Store.cell, hcell, length_cons, bind, Except.bind, hrest]

end Walk

/-- A chain that met a cell twice would never lead to the end. -/
theorem Chain.nodup (hchain : s.Chain key cells) : (cells.map (·.1)).Nodup := by
  induction hchain with
  | nil => exact .nil
  | @cons key cell rest hkey hcell hrest ih =>
    refine nodup_cons.mpr ⟨fun hmem => ?_, ih⟩
    obtain ⟨⟨_, other⟩, hother, rfl⟩ := mem_map.mp hmem
    obtain ⟨before, after, rfl⟩ := append_of_mem hother
    -- What follows the second visit is what follows the first one, so the chain is longer than itself.
    have hlength := congrArg length (hrest.of_append.unique (.cons hkey hcell hrest))
    simp at hlength
    omega

theorem Chain.length_le_size (hchain : s.Chain key cells) : cells.length ≤ s.cells.size := by
  have hkeys : cells.map (·.1) ⊆ s.cells.keys := by
    refine forall_mem_map.mpr fun entry hentry => ?_
    rw [TreeMap.mem_keys, TreeMap.mem_iff_isSome_getElem?, hchain.getElem? hentry]
    rfl
  have hle := (hchain.nodup.subperm hkeys).length_le
  rwa [length_map, TreeMap.length_keys] at hle

/-! ## Keys of the cells of an object -/

/-- The keys that units get from one on. -/
def starts (first : Nat) : List StorageUnit → List Nat
  | [] => []
  | unit :: rest => first :: starts (first + unit.size) rest

theorem length_starts (first : Nat) (units : List StorageUnit) : (starts first units).length = units.length := by
  induction units generalizing first with
  | nil => rfl
  | cons unit rest ih => rw [starts, length_cons, length_cons, ih]

theorem pos_of_nodup_starts {first : Nat} (hnodup : (starts first units).Nodup) :
    ∀ unit ∈ units.dropLast, 0 < unit.size := by
  induction units generalizing first with
  | nil => simp
  | cons unit rest ih =>
    obtain ⟨hfirst, hrest⟩ := nodup_cons.mp hnodup
    rcases rest with _ | ⟨unit', rest⟩
    · simp
    · refine forall_mem_cons.mpr ⟨Nat.pos_of_ne_zero fun hzero => hfirst ?_, ih hrest⟩
      simp [starts, hzero]

/-- Links from cells at these keys stay there until they end. -/
def Leads (cells : TreeMap Nat (Cell ι φ)) (keys : List Nat) : Prop :=
  ∀ key ∈ keys, ∀ cell, cells[key]? = some cell → cell.succ = noCell ∨ cell.succ ∈ keys

variable {keys : List Nat}

theorem Leads.link {cells : TreeMap Nat (Cell ι φ)} (hleads : Leads cells keys) (base : Base)
    (unit : StorageUnit) (next offset previous : Nat) :
    Leads (Tape.link cells base unit next offset previous) (keys ++ [next]) := by
  intro key hkey cell hcell
  rcases Tape.cases_link hcell with ⟨-, -, -, -, hsucc⟩ | ⟨hne, old, hold, -, -, -, hsucc⟩
  · exact hsucc.imp id fun hnext => by simp [hnext]
  · have hold' := hleads key (by simpa [hne] using hkey) old hold
    rw [hsucc]
    split
    · exact .inr (by simp)
    · exact hold'.imp id fun hmem => mem_append_left _ hmem

theorem Leads.appendCells {cells : TreeMap Nat (Cell ι φ)} (hleads : Leads cells keys)
    (units : List StorageUnit) (base : Base) (next offset previous : Nat) :
    Leads (Store.appendCells base units cells next offset previous).1 (keys ++ starts next units) := by
  induction units generalizing cells keys next offset previous with
  | nil => simpa [Store.appendCells, starts] using hleads
  | cons unit rest ih =>
    have hrest := ih (hleads.link base unit next offset previous) (next + unit.size) (offset + unit.size) next
    rwa [append_assoc] at hrest

theorem Leads.mem_of_chain (hleads : Leads s.cells keys) (hchain : s.Chain key cells)
    (hkey : key = noCell ∨ key ∈ keys) : ∀ entry ∈ cells, entry.1 ∈ keys := by
  induction hchain with
  | nil => simp
  | cons hne hcell _ ih =>
    have hmem := hkey.resolve_left hne
    exact forall_mem_cons.mpr ⟨hmem, ih (hleads _ hmem _ hcell)⟩

/-- The links of a new object lead through one cell for each unit exactly if all units but the
last take bytes. -/
theorem exists_chain_addObject_iff (s : Store ι φ) (base : Base) (hunits : units ≠ [])
    (hnext : 0 < s.next) :
    (∃ cells, (s.addObject base units).Chain s.next cells ∧ cells.length = units.length) ↔
      ∀ unit ∈ units.dropLast, 0 < unit.size := by
  constructor
  · rintro ⟨cells, hchain, hlength⟩
    have hnone : Leads s.cells [] := by simp [Leads]
    have hleads : Leads (s.addObject base units).cells (starts s.next units) :=
      hnone.appendCells units base s.next 0 noCell
    have hfirst : s.next ∈ starts s.next units := by
      obtain ⟨unit, rest, rfl⟩ := exists_cons_of_ne_nil hunits
      exact mem_cons_self
    have hsubset : cells.map (·.1) ⊆ starts s.next units :=
      forall_mem_map.mpr (hleads.mem_of_chain hchain (.inr hfirst))
    -- As many different keys as there are units: no two units share theirs.
    have hperm := (hchain.nodup.subperm hsubset).perm_of_length_le (by simp [length_starts, hlength])
    exact pos_of_nodup_starts (hperm.nodup_iff.mp hchain.nodup)
  · intro hpos
    obtain ⟨cells, hchain, hshape, -⟩ :=
      chain_appendCells (s := s.addObject base units) base units hunits hpos s.cells hnext rfl
    exact ⟨cells, hchain, by rw [← hshape, length_map]⟩

variable [DecidableEq ι] [BEq φ] [Domain ι φ]

/-- **Walks through an object end.** Let some type have a layout with repetitions. Allocating it
for a new object of any store that operations built is granted. The links lead from its first cell
through as many cells as there are units, all different, to the end exactly if all units but the
last take bytes, and they do if every union of the type has a member that takes bytes. Then
clearing the object, and reading and writing from any of its cells on, takes no more steps than
there are cells, whatever the bound on the steps, and the bounds that these operations set are
higher. -/
theorem allocate_chain {l : Layouts} {type : CType} {layout : Layout} (hlayout : l.layout type = .ok layout)
    (hcount : 0 < layout.count) (hreach : s.Reachable) {base : Base} (hnew : s.extents[base]? = none) :
    (l.Filled type → ∀ unit ∈ layout.flatten, 0 < unit.size) ∧
    ∃ s', allocate base layout s = .ok ⟨base, 0⟩ s' ∧ s'.extents[base]? = some ⟨s.next, layout.size, false⟩ ∧
      ((∃ cells, s'.Chain s.next cells ∧ cells.length = layout.units.length * layout.count ∧
          (cells.map (·.1)).Nodup) ↔ ∀ unit ∈ layout.flatten.dropLast, 0 < unit.size) ∧
      ∀ cells, s'.Chain s.next cells →
        cells.length ≤ s'.cells.size ∧ EndsWithin cells.length (s'.zeroUpdates · s.next) ∧
        ∀ before key cell after, cells = before ++ (key, cell) :: after → ∀ address within,
          (∀ remaining patterns, EndsWithin cells.length (s'.collectBytes address · key within remaining patterns)) ∧
          ∀ weak patches length consumed,
            EndsWithin cells.length (s'.repack address weak patches length · key within consumed) := by
  have hunits := Layouts.units_ne_nil hlayout
  have hflat := layout.flatten_ne_nil hunits (Nat.ne_of_gt hcount)
  have hcells : layout.flatten.length = layout.units.length * layout.count := by
    simp [Layout.flatten, Nat.mul_comm]
  have hgranted : allocate base layout s = .ok ⟨base, 0⟩ (s.addObject base layout.flatten) := by
    have hallocated : ¬s.isAllocated base = true := by simpa [isAllocated] using hnew
    rw [allocate, if_neg hallocated, if_neg (by simp [hunits, Nat.ne_of_gt hcount])]
    rfl
  refine ⟨fun hfilled unit hunit => ?_, _, hgranted, ?_, ?_, fun cells hchain => ?_⟩
  · exact hfilled.pos (Nat.le_refl _) hlayout unit (layout.mem_units_of_mem_flatten hunit)
  · simp [addObject, appendCells_size, total_flatten]
  · rw [← exists_chain_addObject_iff s base hflat hreach.ordered.next_pos, hcells]
    exact exists_congr fun cells => and_congr_right fun hchain => and_iff_left hchain.nodup
  · refine ⟨hchain.length_le_size, hchain.zeroUpdates, ?_⟩
    rintro before key cell after rfl address within
    have hle : ((key, cell) :: after).length ≤ (before ++ (key, cell) :: after).length := by simp
    have hrest := hchain.of_append
    exact ⟨fun remaining patterns => (hrest.collectBytes address within remaining patterns).mono hle,
      fun weak patches length consumed => (hrest.repack address weak patches length within consumed).mono hle⟩

/-- A struct of a union of a character and an array of length zero, and of an array. -/
def filled : Layouts := .ofDeclarations .gcc
  [("U", ⟨[⟨"a", ⟨.integer .int, 0, some 0⟩⟩, ⟨"c", .integer .char⟩], true⟩),
   ("S", ⟨[⟨"u", .plain (.union "U")⟩, ⟨"x", ⟨.integer .int, 0, some 2⟩⟩], false⟩)]

/-- The only union of the struct has the character. -/
theorem filled_filled : filled.Filled ⟨.struct "S", 0, some 3⟩ := by
  intro members hoverlays
  cases hoverlays with
  | struct _ hbase haggregate =>
    cases hbase
    cases haggregate
  | union _ hbase => cases hbase
  | member _ hbase haggregate hfield _ hinner =>
    cases hbase
    cases haggregate
    rcases mem_pair.mp hfield with rfl | rfl
    · cases hinner with
      | struct _ hbase => cases hbase
      | union _ hbase haggregate =>
        cases hbase
        cases haggregate
        exact ⟨⟨"c", .integer .char⟩, by simp, 1, rfl, Nat.one_pos⟩
      | member _ hbase => cases hbase
    · cases hinner with
      | struct _ hbase => cases hbase
      | union _ hbase => cases hbase
      | member _ hbase => cases hbase

theorem filled_chain :
    filled.layout ⟨.struct "S", 0, some 3⟩ = .ok ⟨[⟨4, .int .char⟩, ⟨4, .int .int⟩, ⟨4, .int .int⟩], 3⟩ ∧
    ∃ (s' : Store Int Double) (cells : List (Nat × Cell Int Double)),
      allocate (.frame 0 "s") ⟨[⟨4, .int .char⟩, ⟨4, .int .int⟩, ⟨4, .int .int⟩], 3⟩ (new .gcc .strong .concrete) =
        .ok ⟨.frame 0 "s", 0⟩ s' ∧ s'.Chain 1 cells ∧ cells.length = 9 := by
  obtain ⟨hpos, s', hrun, -, hiff, -⟩ := allocate_chain
    (show filled.layout ⟨.struct "S", 0, some 3⟩ = .ok _ from rfl) (by decide)
    (show (new .gcc .strong .concrete : Store Int Double).Reachable from .new ..)
    (show _[Base.frame 0 "s"]? = none from rfl)
  obtain ⟨cells, hchain, hlength, -⟩ := hiff.mpr fun unit hunit => hpos filled_filled unit (dropLast_subset _ hunit)
  exact ⟨rfl, s', cells, hrun, hchain, hlength⟩

/-- A struct of a union that takes no bytes and an `int`. -/
def hollow : Layouts := .ofDeclarations .packed [("U", ⟨[⟨"a", ⟨.integer .int, 0, some 0⟩⟩], true⟩),
   ("S", ⟨[⟨"u", .plain (.union "U")⟩, ⟨"x", .integer .int⟩], false⟩)]

/-- Both units of the struct have one key. The cell there follows itself, so the links never end. -/
theorem hollow_loops :
    hollow.layout (.plain (.struct "S")) = .ok ⟨[⟨0, .int .int⟩, ⟨4, .int .int⟩], 1⟩ ∧
    ∃ s' : Store Int Double, allocate (.frame 0 "s") ⟨[⟨0, .int .int⟩, ⟨4, .int .int⟩], 1⟩
        (new .packed .strong .concrete) = .ok ⟨.frame 0 "s", 0⟩ s' ∧ ∀ cells, ¬s'.Chain 1 cells :=
  ⟨rfl, _, rfl, fun _ hchain => hchain.succ_ne (show _[1]? = some _ from rfl) Nat.one_ne_zero rfl⟩

end Store

end CoreC
