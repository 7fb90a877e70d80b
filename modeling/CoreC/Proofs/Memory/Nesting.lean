import CoreC.Proofs.Memory.Packing
import Mathlib.Data.Finset.Card

/-! # Layouts of nested aggregates

Aggregates are laid out by the layouts of those inside them, as far down as a resolver reaches.
A resolver that reaches further says the same where both say something. One more level lays out
more aggregates or none, and once it lays out none, no further level does. So as many levels as
there are declarations reach all that can be laid out at all.
-/

namespace CoreC

open List Except Resolver Layout

variable {type : CType} {a : Nat} {units : List StorageUnit}

/-- A fold that first looks something up for each item succeeds if all is found. -/
theorem foldlM_map_eq_ok {ε α β γ : Type} {find : α → Except ε γ} {next : β → γ → β}
    {items : List α} {start out : β} :
    items.foldlM (fun b a => (find a).map (next b)) start = .ok out ↔
      ∃ found, Forall₂ (fun a c => find a = .ok c) items found ∧ found.foldl next start = out := by
  induction items generalizing start with
  | nil =>
    refine ⟨fun hrun => ⟨[], .nil, ok.inj hrun⟩, ?_⟩
    rintro ⟨_, ⟨⟩, rfl⟩
    rfl
  | cons a rest ih =>
    rw [foldlM_cons]
    constructor
    · intro hrun
      obtain ⟨b, hb, hrest⟩ := exists_of_bind_ok hrun
      obtain ⟨c, hc, rfl⟩ := exists_of_map_ok hb
      obtain ⟨found, hfound, hout⟩ := ih.mp hrest
      exact ⟨c :: found, .cons hc hfound, hout⟩
    · rintro ⟨_, _ | ⟨hc, hfound⟩, hout⟩
      rw [hc]
      exact ih.mpr ⟨_, hfound, hout⟩

theorem forall_of_forall₂ {α β : Type} {R : α → β → Prop} {P : β → Prop} {as : List α} {bs : List β}
    (hall : Forall₂ R as bs) (hP : ∀ a ∈ as, ∀ b, R a b → P b) : ∀ b ∈ bs, P b := by
  induction hall with
  | nil => simp
  | cons hab _ ih =>
    refine forall_mem_cons.mpr ⟨hP _ mem_cons_self _ hab, ih fun a ha => ?_⟩
    exact hP a (mem_cons_of_mem _ ha)

namespace Resolver

variable {t : Target} {r r' : Resolver} {fields : List Member}

/-! ## What is said of members -/

def measure (t : Target) (r : Resolver) (field : Member) : Except Fault Measure := do
  let align ← align t r field.type
  let layout ← layout t r field.type
  return ⟨align, layout⟩

theorem measure_eq_ok {field : Member} {m : Measure} : measure t r field = .ok m ↔
    align t r field.type = .ok m.align ∧ layout t r field.type = .ok m.layout := by
  constructor
  · intro hmeasure
    obtain ⟨align, halign, hrest⟩ := exists_of_bind_ok hmeasure
    obtain ⟨layout, hlayout, hm⟩ := exists_of_bind_ok hrest
    cases hm
    exact ⟨halign, hlayout⟩
  · rintro ⟨halign, hlayout⟩
    rw [measure, halign, hlayout]
    rfl

/-- All fields are measured. -/
def Measures (t : Target) (r : Resolver) : List Member → List Measure → Prop :=
  Forall₂ fun field m => measure t r field = .ok m

theorem place_eq (placed : Placed) (field : Member) :
    place t r placed field = (measure t r field).map (put placed) := by
  unfold place measure
  cases align t r field.type <;> cases layout t r field.type <;> rfl

/-- The larger of the best member so far and the next one. -/
def pick (best : Option (Nat × Scalar)) (layout : Layout) : Option (Nat × Scalar) :=
  match layout.units, best with
  | [], _ => best
  | first :: _, none => some (layout.size, first.scalar)
  | first :: _, some (largest, scalar) =>
    if largest < layout.size then some (layout.size, first.scalar) else some (largest, scalar)

theorem larger_eq (best : Option (Nat × Scalar)) (field : Member) :
    larger t r best field = (layout t r field.type).map (pick best) := by
  unfold larger pick
  cases layout t r field.type with
  | error => rfl
  | ok layout =>
    obtain ⟨units, count⟩ := layout
    rcases units with _ | ⟨first, rest⟩ <;> rcases best with _ | ⟨largest, scalar⟩
    iterate 3 rfl
    dsimp only [bind, Except.bind, Except.map]
    split <;> rfl

variable {ms : List Measure}

theorem widest_eq (hms : Measures t r fields ms) : widest t r fields = .ok (pack ms).widest := by
  have hfold placed : fields.foldlM (fun widest field => (align t r field.type).map (max widest ·))
      placed.widest = .ok (ms.foldl put placed).widest := by
    induction hms generalizing placed with
    | nil => rfl
    | cons hm _ ih =>
      rw [foldlM_cons, (measure_eq_ok.mp hm).1]
      exact ih (put placed _)
  exact hfold ⟨[], 0, 1⟩

/-- The units of a struct are those of its packed members. -/
theorem placeStruct_eq_ok {name : String} : placeStruct t r name fields = .ok units ↔
    ∃ ms, Measures t r fields ms ∧ (pack ms).units ≠ [] ∧
      units = padLast (pack ms).units (padding (pack ms).offset (pack ms).widest) := by
  simp only [placeStruct, funext₂ place_eq]
  constructor
  · intro hrun
    obtain ⟨placed, hplaced, hrest⟩ := exists_of_bind_ok hrun
    obtain ⟨ms, hms, rfl⟩ := foldlM_map_eq_ok.mp hplaced
    split at hrest <;> cases hrest
    next hunits => exact ⟨ms, hms, by simpa [pack] using hunits, rfl⟩
  · rintro ⟨ms, hms, hunits, rfl⟩
    rw [foldlM_map_eq_ok.mpr ⟨ms, hms, rfl⟩]
    exact if_neg (by simpa [pack] using hunits)

/-- The best member stays, or the next one is larger and replaces it. -/
theorem pick_cases (best : Option (Nat × Scalar)) (layout : Layout) : (pick best layout = best ∧
      (layout.units ≠ [] → ∃ size scalar, best = some (size, scalar) ∧ layout.size ≤ size)) ∨
    ∃ first ∈ layout.units, pick best layout = some (layout.size, first.scalar) ∧
      ∀ size scalar, best = some (size, scalar) → size ≤ layout.size := by
  obtain ⟨units, count⟩ := layout
  rcases units with _ | ⟨first, rest⟩
  · exact .inl ⟨rfl, fun hne => absurd rfl hne⟩
  · rcases best with _ | ⟨largest, scalar⟩
    · exact .inr ⟨first, mem_cons_self, rfl, by simp⟩
    · by_cases hlarger : largest < size ⟨first :: rest, count⟩
      · exact .inr ⟨first, mem_cons_self, if_pos hlarger, by simpa using Nat.le_of_lt hlarger⟩
      · exact .inl ⟨if_neg hlarger, fun _ => ⟨largest, scalar, rfl, Nat.le_of_not_lt hlarger⟩⟩

/-- The best member is at least as large as any that takes units, and is one of them. -/
theorem foldl_pick (layouts : List Layout) : (∀ layout ∈ layouts, layout.units ≠ [] →
      ∃ size scalar, layouts.foldl pick none = some (size, scalar) ∧ layout.size ≤ size) ∧
    ∀ {size scalar}, layouts.foldl pick none = some (size, scalar) →
      ∃ layout ∈ layouts, ∃ first ∈ layout.units, first.scalar = scalar := by
  induction layouts using reverseRecOn with
  | nil => simp
  | append_singleton layouts layout ih =>
    obtain ⟨hsizes, hone⟩ := ih
    rw [foldl_append, foldl_cons, foldl_nil]
    rcases pick_cases (layouts.foldl pick none) layout with ⟨hsame, hsmall⟩ | ⟨first, hfirst, hnew, hlarge⟩
    · rw [hsame]
      grind
    · rw [hnew]
      grind

/-! ## Regular resolvers -/

/-- Alignments are powers of two, and what is laid out has one and is aligned to it. -/
structure Regular (t : Target) (r : Resolver) : Prop where
  power : ∀ {name a}, r.aggregateAlign name = .ok a → a.isPowerOfTwo
  struct : ∀ {name units}, r.structUnits name = .ok units →
    ∃ a, r.aggregateAlign name = .ok a ∧ (t.packing ≠ .compact → Aligned t a units)
  union : ∀ {name unit}, r.unionUnit name = .ok unit →
    ∃ a, r.aggregateAlign name = .ok a ∧ (t.packing ≠ .compact → Aligned t a [unit])

theorem size_mem (t : Target) (scalar : Scalar) : scalar.size t ∈ [1, 2, 4, 8, 16] := by
  cases scalar with
  | int type => cases t <;> cases hrank : type.rank <;> simp [Scalar.size, Target.intWidth, hrank]
  | float kind => cases t <;> cases kind <;> decide
  | pointer | function => cases t <;> simp [Scalar.size, Target.wordWidth]

theorem isPowerOfTwo_size (t : Target) (scalar : Scalar) : (scalar.size t).isPowerOfTwo := by
  have hpowers : ∀ n ∈ [1, 2, 4, 8, 16], n.isPowerOfTwo := by
    simpa using ⟨⟨0, rfl⟩, ⟨1, rfl⟩, ⟨2, rfl⟩, ⟨3, rfl⟩, ⟨4, rfl⟩⟩
  exact hpowers _ (size_mem t scalar)

namespace Regular

variable (hr : Regular t r)
include hr

theorem isPowerOfTwo_align (halign : align t r type = .ok a) : a.isPowerOfTwo := by
  unfold align at halign
  split at halign
  · cases halign
    exact ⟨0, rfl⟩
  · split at halign
    · exact hr.power halign
    · exact hr.power halign
    · obtain ⟨scalar, -, rfl⟩ := exists_of_map_ok halign
      exact isPowerOfTwo_size t scalar

theorem isPowerOfTwo_widest (hwidest : widest t r fields = .ok a) : a.isPowerOfTwo := by
  obtain ⟨aligns, haligns, rfl⟩ := foldlM_map_eq_ok.mp hwidest
  have hfold {start} (hstart : start.isPowerOfTwo) : (aligns.foldl max start).isPowerOfTwo := by
    clear hwidest
    induction haligns generalizing start with
    | nil => exact hstart
    | cons halign _ ih => exact ih (dvd_max_of_isPowerOfTwo hstart (hr.isPowerOfTwo_align halign)).2.2
  exact hfold ⟨0, rfl⟩

theorem aligned {layout' : Layout} (hlayout : layout t r type = .ok layout') :
    ∃ a, align t r type = .ok a ∧ (t.packing ≠ .compact → Aligned t a layout'.units) := by
  obtain ⟨units, hunits, rfl⟩ := exists_of_map_ok hlayout
  by_cases hcompact : t.packing = .compact
  · exact ⟨1, if_pos hcompact, fun hne => absurd hcompact hne⟩
  have hscalar {act : Except Fault Scalar} (hact : act.map (fun scalar => [⟨scalar.size t, scalar⟩]) = .ok units) :
      ∃ a, act.map (·.size t) = .ok a ∧ (t.packing ≠ .compact → Aligned t a units) := by
    obtain ⟨scalar, hscalar, rfl⟩ := exists_of_map_ok hact
    refine ⟨_, congrArg _ hscalar, fun _ => ⟨⟨Nat.dvd_zero _, trivial⟩, by simp, ?_⟩⟩
    simp [StorageUnit.total]
  rw [align, if_neg hcompact]
  obtain ⟨base, pointers, length⟩ := type
  cases pointers with
  | succ => exact hscalar hunits
  | zero =>
    cases base with
    | struct name => exact hr.struct hunits
    | union name =>
      obtain ⟨unit, hunit, rfl⟩ := exists_of_map_ok hunits
      exact hr.union hunit
    | _ => exact hscalar hunits

theorem exists_measures {layouts : List Layout}
    (hlayouts : Forall₂ (fun field layout' => layout t r field.type = .ok layout') fields layouts) :
    ∃ ms, Measures t r fields ms ∧ ms.map (·.layout) = layouts := by
  induction hlayouts with
  | nil => exact ⟨[], .nil, rfl⟩
  | cons hlayout _ ih =>
    obtain ⟨a, halign, -⟩ := hr.aligned hlayout
    obtain ⟨ms, hms, rfl⟩ := ih
    exact ⟨⟨a, _⟩ :: ms, .cons (measure_eq_ok.mpr ⟨halign, hlayout⟩) hms, rfl⟩

theorem of_measures (hms : Measures t r fields ms) : ∀ m ∈ ms,
    m.align.isPowerOfTwo ∧ (t.packing = .compact → m.align = 1) ∧
      (t.packing ≠ .compact → Aligned t m.align m.layout.units) := by
  refine forall_of_forall₂ hms fun field _ m hm => ?_
  obtain ⟨halign, hlayout⟩ := measure_eq_ok.mp hm
  refine ⟨hr.isPowerOfTwo_align halign, fun hcompact => ?_, fun hne => ?_⟩
  · rw [align, if_pos hcompact] at halign
    exact (ok.inj halign).symm
  · obtain ⟨a, ha, haligned⟩ := hr.aligned hlayout
    rw [halign] at ha
    exact ok.inj ha ▸ haligned hne

/-- The unit of a union holds its largest member and is padded to the widest alignment. -/
theorem exists_of_overlay_eq_ok {name : String} {unit : StorageUnit} (hrun : overlay t r name fields = .ok unit) :
    ∃ ms size, Measures t r fields ms ∧ (∀ m ∈ ms, m.layout.units ≠ [] → m.layout.size ≤ size) ∧
      (∃ m ∈ ms, ∃ first ∈ m.layout.units, first.scalar = unit.scalar) ∧
      unit.size = size + padding size (pack ms).widest := by
  obtain ⟨best, hbest, hrest⟩ := exists_of_bind_ok hrun
  simp only [funext₂ larger_eq] at hbest
  obtain ⟨layouts, hlayouts, rfl⟩ := foldlM_map_eq_ok.mp hbest
  obtain ⟨ms, hms, rfl⟩ := hr.exists_measures hlayouts
  obtain ⟨hsizes, hone⟩ := foldl_pick (ms.map (·.layout))
  split at hrest
  · cases hrest
  next size scalar hbest =>
    have hunit : unit = ⟨size + padding size (pack ms).widest, scalar⟩ := by
      by_cases hcompact : t.packing = .compact
      · rw [(offset_pack fun m hm => (hr.of_measures hms m hm).2.1 hcompact).1]
        rw [if_pos hcompact] at hrest
        exact (ok.inj hrest).symm
      · rw [if_neg hcompact, widest_eq hms] at hrest
        exact (ok.inj hrest).symm
    obtain ⟨_, hmem, first, hfirst, hscalar⟩ := hone hbest
    obtain ⟨m, hm, rfl⟩ := mem_map.mp hmem
    refine ⟨ms, size, hms, fun other hother hunits => ?_, ⟨m, hm, first, hfirst,
      by rw [hunit, hscalar]⟩, by rw [hunit]⟩
    obtain ⟨size', scalar', hbest', hle⟩ := hsizes other.layout (mem_map_of_mem hother) hunits
    rw [hbest] at hbest'
    cases hbest'
    exact hle

end Regular

/-! ## Resolvers that reach further -/

/-- Units that one resolver knows the other knows as well. -/
structure Knows (r r' : Resolver) : Prop where
  struct : ∀ {name units}, r.structUnits name = .ok units → r'.structUnits name = .ok units
  union : ∀ {name unit}, r.unionUnit name = .ok unit → r'.unionUnit name = .ok unit

theorem Knows.scalar (hknows : Knows r r') {scalar' : Scalar} (hscalar : scalar t r type = .ok scalar') :
    scalar t r' type = .ok scalar' := by
  have hstep {step} (hbase : baseStep t r type.base = .ok step) : baseStep t r' type.base = .ok step := by
    unfold baseStep at hbase ⊢
    split at hbase
    iterate 4 exact hbase
    · obtain ⟨units, hunits, rfl⟩ := exists_of_map_ok hbase
      exact congrArg _ (hknows.struct hunits)
    · obtain ⟨unit, hunit, rfl⟩ := exists_of_map_ok hbase
      exact congrArg _ (hknows.union hunit)
  unfold Resolver.scalar at hscalar ⊢
  split_ifs at hscalar ⊢
  · exact hscalar
  iterate 2
    obtain ⟨step, hbase, hrest⟩ := exists_of_bind_ok hscalar
    rw [hstep hbase]
    exact hrest
  · exact hscalar

theorem Knows.layout (hknows : Knows r r') {layout' : Layout} (hlayout : layout t r type = .ok layout') :
    layout t r' type = .ok layout' := by
  obtain ⟨units, hunits, rfl⟩ := exists_of_map_ok hlayout
  suffices helement : elementUnits t r' type = .ok units by
    rw [Resolver.layout, helement]
    rfl
  unfold elementUnits at hunits ⊢
  split at hunits
  · exact hknows.struct hunits
  · obtain ⟨unit, hunit, rfl⟩ := exists_of_map_ok hunits
    exact congrArg _ (hknows.union hunit)
  · obtain ⟨scalar', hscalar, rfl⟩ := exists_of_map_ok hunits
    exact congrArg _ (hknows.scalar hscalar)

/-- A resolver that says the same as another one, and maybe more. -/
structure Extends (r r' : Resolver) : Prop extends Knows r r' where
  aggregateAlign : ∀ {name a}, r.aggregateAlign name = .ok a → r'.aggregateAlign name = .ok a

variable (hextends : Extends r r')

include hextends

theorem Extends.align_eq (halign : align t r type = .ok a) : align t r' type = .ok a := by
  unfold Resolver.align at halign ⊢
  split_ifs at halign ⊢
  · exact halign
  · split at halign
    · exact hextends.aggregateAlign halign
    · exact hextends.aggregateAlign halign
    · obtain ⟨scalar', hscalar, hsize⟩ := exists_of_map_ok halign
      rw [hextends.scalar hscalar, ← hsize]
      rfl

theorem Extends.measures (hms : Measures t r fields ms) :
    Measures t r' fields ms := by
  refine hms.imp fun field m hmeasure => ?_
  obtain ⟨halign, hlayout⟩ := measure_eq_ok.mp hmeasure
  exact measure_eq_ok.mpr ⟨hextends.align_eq halign, hextends.layout hlayout⟩

/-- Both resolvers lay out members alike that one of them measures. -/
theorem Extends.congr (hms : Measures t r fields ms) (name : String) :
    placeStruct t r' name fields = placeStruct t r name fields ∧
    overlay t r' name fields = overlay t r name fields := by
  have hms' := hextends.measures hms
  have hlayouts {r} (hms : Measures t r fields ms) :
      fields.foldlM (larger t r) none = .ok ((ms.map (·.layout)).foldl pick none) := by
    simp only [funext₂ larger_eq]
    exact foldlM_map_eq_ok.mpr ⟨_,
      forall₂_map_right_iff.mpr (hms.imp fun _ _ hm => (measure_eq_ok.mp hm).2), rfl⟩
  constructor
  · simp only [placeStruct, funext₂ place_eq]
    rw [foldlM_map_eq_ok.mpr ⟨ms, hms, rfl⟩, foldlM_map_eq_ok.mpr ⟨ms, hms', rfl⟩]
  · rw [overlay, overlay, hlayouts hms, hlayouts hms', widest_eq hms, widest_eq hms']

end Resolver

namespace Layouts

variable (l : Layouts)

theorem refuse_ne_ok {α : Type} (name : String) (a : α) : l.refuse name ≠ .ok a := by
  intro hok
  obtain ⟨-, -, hrefused⟩ := exists_of_bind_ok hok
  cases hrefused

theorem mem_of_aggregate {l : Layouts} {name : String} {aggregate : Aggregate}
    (haggregate : l.aggregate name = .ok aggregate) : (name, aggregate) ∈ l.aggregates := by
  unfold Layouts.aggregate at haggregate
  split at haggregate <;> cases haggregate
  next hlookup =>
    obtain ⟨before, after, heq, -⟩ := lookup_eq_some_iff.mp hlookup
    simp [heq]

section Declared

variable {l} {name : String} {aggregate : Aggregate} (haggregate : l.aggregate name = .ok aggregate) (depth : Nat)
include haggregate

theorem aggregateAlign_succ : (l.resolver (depth + 1)).aggregateAlign name =
    (l.resolver depth).widest l.target aggregate.fields := by
  change (l.aggregate name >>= _) = _
  rw [haggregate]
  rfl

theorem structUnits_succ : (l.resolver (depth + 1)).structUnits name =
    if aggregate.union then ((l.resolver depth).overlay l.target name aggregate.fields).map ([·])
    else (l.resolver depth).placeStruct l.target name aggregate.fields := by
  change (l.aggregate name >>= _) = _
  rw [haggregate]
  rfl

theorem unionUnit_succ : (l.resolver (depth + 1)).unionUnit name =
    (l.resolver depth).overlay l.target name aggregate.fields := by
  change (l.aggregate name >>= _) = _
  rw [haggregate]
  rfl

end Declared

theorem regular (depth : Nat) : (l.resolver depth).Regular l.target := by
  induction depth with
  | zero =>
    exact ⟨fun hok => absurd hok (l.refuse_ne_ok _ _), fun hok => absurd hok (l.refuse_ne_ok _ _),
      fun hok => absurd hok (l.refuse_ne_ok _ _)⟩
  | succ depth ih =>
    -- The unit of a union holds what the first unit of some member holds, and is padded at its end.
    have hunion {aggregate : Aggregate} {name} {unit}
        (hunit : (l.resolver depth).overlay l.target name aggregate.fields = .ok unit) :
        ∃ a, (l.resolver depth).widest l.target aggregate.fields = .ok a ∧
          (l.target.packing ≠ .compact → Aligned l.target a [unit]) := by
      obtain ⟨ms, size, hms, -, ⟨m, hm, first, hfirst, hscalar⟩, hsize⟩ := ih.exists_of_overlay_eq_ok hunit
      have hof := ih.of_measures hms
      obtain ⟨hpow, hdvd⟩ := dvd_widest_pack fun m hm => (hof m hm).1
      refine ⟨_, widest_eq hms, fun hne => ⟨⟨Nat.dvd_zero _, trivial⟩, ?_, ?_⟩⟩
      · rintro _ (_ | ⟨_, ⟨⟩⟩)
        rw [← hscalar]
        exact Nat.dvd_trans (((hof m hm).2.2 hne).divides first hfirst) (hdvd m hm)
      · rw [StorageUnit.total, foldr_cons, foldr_nil, hsize]
        exact (isLeast_padding size (Nat.pos_of_isPowerOfTwo hpow)).1.1
    refine ⟨fun {name a} hok => ?_, fun {name units} hok => ?_, fun {name unit} hok => ?_⟩ <;>
      obtain ⟨aggregate, haggregate, hok⟩ := exists_of_bind_ok hok
    · exact ih.isPowerOfTwo_widest hok
    · rw [aggregateAlign_succ haggregate]
      split at hok
      · obtain ⟨unit, hunit, rfl⟩ := exists_of_map_ok hok
        exact hunion hunit
      · obtain ⟨ms, hms, -, rfl⟩ := placeStruct_eq_ok.mp hok
        have hof := ih.of_measures hms
        exact ⟨_, widest_eq hms, fun hne => aligned_pack fun m hm => ⟨(hof m hm).1, (hof m hm).2.2 hne⟩⟩
    · rw [aggregateAlign_succ haggregate]
      exact hunion hok

/-- The members of an aggregate are laid out by the levels inside it. -/
def Laid (l : Layouts) (depth : Nat) (name : String) : Prop :=
  ∃ aggregate ms, l.aggregate name = .ok aggregate ∧ (l.resolver depth).Measures l.target aggregate.fields ms

variable {l} {depth : Nat} {name : String}

theorem laid_of_unionUnit {unit : StorageUnit} (hunit : (l.resolver (depth + 1)).unionUnit name = .ok unit) :
    l.Laid depth name := by
  obtain ⟨aggregate, haggregate, hunit⟩ := exists_of_bind_ok hunit
  obtain ⟨ms, -, hms, -⟩ := (l.regular depth).exists_of_overlay_eq_ok hunit
  exact ⟨aggregate, ms, haggregate, hms⟩

theorem laid_of_structUnits (hunits : (l.resolver (depth + 1)).structUnits name = .ok units) :
    l.Laid depth name := by
  obtain ⟨aggregate, haggregate, hrun⟩ := exists_of_bind_ok hunits
  split at hrun
  · obtain ⟨unit, hunit, -⟩ := exists_of_map_ok hrun
    exact laid_of_unionUnit (by rw [unionUnit_succ haggregate, hunit])
  · obtain ⟨ms, hms, -⟩ := placeStruct_eq_ok.mp hrun
    exact ⟨aggregate, ms, haggregate, hms⟩

/-- More levels change nothing about an aggregate whose members are laid out. -/
theorem Laid.congr (hlaid : l.Laid depth name) {further : Nat}
    (hextends : (l.resolver depth).Extends (l.resolver further)) :
    (l.resolver (further + 1)).structUnits name = (l.resolver (depth + 1)).structUnits name ∧
      (l.resolver (further + 1)).unionUnit name = (l.resolver (depth + 1)).unionUnit name := by
  obtain ⟨aggregate, ms, haggregate, hms⟩ := hlaid
  obtain ⟨hstruct, hunion⟩ := hextends.congr hms name
  simp only [structUnits_succ haggregate, unionUnit_succ haggregate, hstruct, hunion, and_self]

theorem extends_succ (l : Layouts) (depth : Nat) : (l.resolver depth).Extends (l.resolver (depth + 1)) := by
  induction depth with
  | zero =>
    exact ⟨⟨fun hok => absurd hok (l.refuse_ne_ok _ _), fun hok => absurd hok (l.refuse_ne_ok _ _)⟩,
      fun hok => absurd hok (l.refuse_ne_ok _ _)⟩
  | succ depth ih =>
    refine ⟨⟨fun hok => ?_, fun hok => ?_⟩, fun {name a} hok => ?_⟩
    · rw [((laid_of_structUnits hok).congr ih).1, hok]
    · rw [((laid_of_unionUnit hok).congr ih).2, hok]
    · obtain ⟨aggregate, haggregate, hok⟩ := exists_of_bind_ok hok
      obtain ⟨aligns, haligns, hmax⟩ := foldlM_map_eq_ok.mp hok
      rw [aggregateAlign_succ haggregate]
      exact foldlM_map_eq_ok.mpr ⟨aligns, haligns.imp fun _ _ => ih.align_eq, hmax⟩

theorem Laid.succ (hlaid : l.Laid depth name) : l.Laid (depth + 1) name := by
  obtain ⟨aggregate, ms, haggregate, hms⟩ := hlaid
  exact ⟨aggregate, ms, haggregate, (l.extends_succ depth).measures hms⟩

/-- When one more level lays out nothing new, neither does the level after it. -/
theorem laid_of_laid_succ (hsettled : ∀ {name}, l.Laid (depth + 1) name → l.Laid depth name)
    (hlaid : l.Laid (depth + 2) name) : l.Laid (depth + 1) name := by
  have hknows : (l.resolver (depth + 2)).Knows (l.resolver (depth + 1)) := by
    refine ⟨fun hok => ?_, fun hok => ?_⟩
    · rw [← ((hsettled (laid_of_structUnits hok)).congr (l.extends_succ depth)).1, hok]
    · rw [← ((hsettled (laid_of_unionUnit hok)).congr (l.extends_succ depth)).2, hok]
  -- Alignments need not be compared: what has a layout has an alignment.
  obtain ⟨aggregate, ms, haggregate, hms⟩ := hlaid
  obtain ⟨found, hfound, -⟩ := (l.regular (depth + 1)).exists_measures (forall₂_map_right_iff.mpr
    (hms.imp fun _ _ hm => hknows.layout (measure_eq_ok.mp hm).2))
  exact ⟨aggregate, found, haggregate, hfound⟩

/-- Among as many levels as there are declarations, one is the last to lay out anything new. -/
theorem exists_settled (l : Layouts) :
    ∃ depth ≤ l.aggregates.length, ∀ {name}, l.Laid (depth + 1) name → l.Laid depth name := by
  classical
  let done (depth : Nat) : Finset String := (l.aggregates.map (·.1)).toFinset.filter (l.Laid depth)
  have hmem {depth} {name} : name ∈ done depth ↔ l.Laid depth name := by
    simp only [done, Finset.mem_filter, mem_toFinset, and_iff_right_iff_imp]
    rintro ⟨aggregate, -, haggregate, -⟩
    exact mem_map_of_mem (mem_of_aggregate haggregate)
  -- Until the levels settle, each lays out at least one aggregate more.
  have hgrow depth : (∃ earlier < depth, done earlier = done (earlier + 1)) ∨
    depth ≤ (done depth).card := by
    induction depth with
    | zero => exact .inr (Nat.zero_le _)
    | succ depth ih =>
      rcases ih with ⟨earlier, hlt, hsame⟩ | hcard
      · exact .inl ⟨earlier, by omega, hsame⟩
      · by_cases hsame : done depth = done (depth + 1)
        · exact .inl ⟨depth, by omega, hsame⟩
        · have hsubset : done depth ⊆ done (depth + 1) := fun name hname => hmem.mpr (hmem.mp hname).succ
          have hlt := Finset.card_lt_card (hsubset.ssubset_of_ne hsame)
          exact .inr (by omega)
  have hcard : (done (l.aggregates.length + 1)).card ≤ l.aggregates.length := by
    refine (Finset.card_filter_le _ _).trans ((toFinset_card_le _).trans ?_)
    simp
  rcases hgrow (l.aggregates.length + 1) with ⟨depth, hlt, hsame⟩ | hmany
  · exact ⟨depth, by omega, fun hlaid => hmem.mp (hsame ▸ hmem.mpr hlaid)⟩
  · omega

/-- The members of an aggregate that all levels lay out are laid out one level further in. -/
theorem laid_of_laid_full (hlaid : l.Laid (l.aggregates.length + 1) name) : l.Laid l.aggregates.length name := by
  obtain ⟨depth, hle, hsettled⟩ := l.exists_settled
  have hlater {further} (hfurther : depth ≤ further) :
      ∀ {name}, l.Laid (further + 1) name → l.Laid further name := by
    induction hfurther with
    | refl => exact hsettled
    | step _ ih => exact laid_of_laid_succ ih
  exact hlater hle hlaid

/-- A struct whose members have sizes is laid out, and its members are measured alike from inside
and from outside. -/
theorem exists_of_sizes {fields : List Member} (hstruct : l.aggregate name = .ok ⟨fields, false⟩)
    (hsizes : ∀ field ∈ fields, ∃ size, l.sizeOf field.type = .ok size) :
    ∃ ms, (l.resolver l.aggregates.length).Measures l.target fields ms ∧ l.full.Measures l.target fields ms := by
  have hlayouts : ∃ layouts,
      Forall₂ (fun field layout => l.layout field.type = .ok layout) fields layouts := by
    clear hstruct
    induction fields with
    | nil => exact ⟨[], .nil⟩
    | cons field rest ih =>
      obtain ⟨size, hsize⟩ := hsizes field mem_cons_self
      obtain ⟨layout, hlayout, -⟩ := exists_of_map_ok hsize
      obtain ⟨layouts, hrest⟩ := ih fun other hother => hsizes other (mem_cons_of_mem _ hother)
      exact ⟨layout :: layouts, .cons hlayout hrest⟩
  obtain ⟨layouts, hlayouts⟩ := hlayouts
  obtain ⟨found, hfound, -⟩ := (l.regular _).exists_measures hlayouts
  obtain ⟨aggregate, ms, haggregate, hms⟩ := laid_of_laid_full ⟨_, found, hstruct, hfound⟩
  rw [hstruct] at haggregate
  cases haggregate
  exact ⟨ms, hms, (l.extends_succ _).measures hms⟩

/-- **Members are packed.** A struct whose members take bytes is laid out: each member starts at
the first multiple of its alignment after the member before it, and the whole ends at the first
multiple of the struct's alignment. On targets that align, every unit starts at a multiple of the
size of what it holds. On targets that do not, members stand one after the other. Of any type, an
array takes its length times the bytes of an element. -/
theorem struct_packed (l : Layouts) {name : String} {fields : List Member}
    (hstruct : l.aggregate name = .ok ⟨fields, false⟩) (hfields : fields ≠ [])
    (hsizes : ∀ field ∈ fields, ∃ size, l.sizeOf field.type = .ok size ∧ 0 < size) :
    (∃ ms align units,
      Forall₂ (fun field m => l.align field.type = .ok m.align ∧ l.layout field.type = .ok m.layout) fields ms ∧
      l.layout (.plain (.struct name)) = .ok ⟨units, 1⟩ ∧
      l.sizeOf (.plain (.struct name)) = .ok (StorageUnit.total units) ∧
      l.align (.plain (.struct name)) = .ok align ∧
      Packed align ms units ∧
      (l.target.packing = .aligned →
        ∀ i (hi : i < units.length), units[i].scalar.size l.target ∣ StorageUnit.total (units.take i)) ∧
      (l.target.packing = .compact → align = 1 ∧ StorageUnit.total units = (ms.map (·.layout.size)).sum)) ∧
    ∀ (type : CType) (n : Nat), l.sizeOf { type with length? := some n } = (l.sizeOf type.element).map (n * ·) := by
  constructor
  · obtain ⟨ms, hinner, hms⟩ := exists_of_sizes hstruct fun field hfield => (hsizes field hfield).imp fun _ => And.left
    have hmeasures := hms.imp fun _ _ => measure_eq_ok.mp
    have hof := (l.regular _).of_measures hinner
    have htakes : ∀ m ∈ ms, m.layout.flatten ≠ [] := by
      refine forall_of_forall₂ hmeasures fun field hfield m hm hempty => ?_
      obtain ⟨size, hsize, hpos⟩ := hsizes field hfield
      rw [sizeOf, layout, hm.2] at hsize
      cases hsize
      rw [← total_flatten, hempty] at hpos
      exact Nat.lt_irrefl 0 hpos
    have hunits : (pack ms).units ≠ [] := by
      rcases ms.eq_nil_or_concat with rfl | ⟨before, last, rfl⟩
      · cases hmeasures
        exact absurd rfl hfields
      · rw [concat_eq_append, pack_concat]
        exact append_ne_nil_of_right_ne_nil _ (htakes last (by simp))
    have hlayout : l.layout (.plain (.struct name)) =
        .ok ⟨padLast (pack ms).units (padding (pack ms).offset (pack ms).widest), 1⟩ := by
      change (l.full.structUnits name).map _ = _
      rw [full, structUnits_succ hstruct, if_neg Bool.false_ne_true,
        placeStruct_eq_ok.mpr ⟨ms, hinner, hunits, rfl⟩]
      rfl
    refine ⟨ms, (pack ms).widest, _, hmeasures, hlayout, ?_, ?_,
      packed_pack fun m hm => ⟨(hof m hm).1, htakes m hm⟩, fun haligned => ?_, fun hcompact => ?_⟩
    · rw [sizeOf, hlayout]
      exact congrArg ok (Nat.mul_one _)
    · rw [align, Resolver.align]
      split
      next hcompact => rw [(offset_pack fun m hm => (hof m hm).2.1 hcompact).1]
      next =>
        change l.full.aggregateAlign name = _
        rw [full, aggregateAlign_succ hstruct, widest_eq hinner]
    · have hne : l.target.packing ≠ .compact := by simp [haligned]
      exact (aligned_pack fun m hm => ⟨(hof m hm).1, (hof m hm).2.2 hne⟩).starts.dvd_take
    · obtain ⟨hwidest, hoffset⟩ := offset_pack fun m hm => (hof m hm).2.1 hcompact
      rw [total_padLast_pack, hwidest, padding_one, hoffset]
      exact ⟨rfl, rfl⟩
  · intro type n
    change ((l.full.elementUnits l.target type).map _).map _ =
      (((l.full.elementUnits l.target type).map _).map _).map _
    cases l.full.elementUnits l.target type with
    | error => rfl
    | ok units => exact congrArg ok (by simp [size, stride, CType.element, Nat.mul_comm])

/-- A struct of a character, an array of padded pairs and a floating number. -/
def nested : Layouts := ofDeclarations .gcc
  [("P", ⟨[⟨"c", .integer .char⟩, ⟨"x", .integer .int⟩], false⟩),
   ("S", ⟨[⟨"a", .integer .char⟩, ⟨"p", ⟨.struct "P", 0, some 2⟩⟩, ⟨"d", .plain (.floating .double)⟩], false⟩)]

/-- One byte and three of padding, two pairs of eight bytes, four bytes of padding, and eight. -/
theorem nested_packed : ∃ fields, nested.aggregate "S" = .ok ⟨fields, false⟩ ∧
      (∀ field ∈ fields, ∃ size, nested.sizeOf field.type = .ok size ∧ 0 < size) ∧
      ∃ ms units, nested.layout (.plain (.struct "S")) = .ok ⟨units, 1⟩ ∧ Packed 8 ms units ∧
        StorageUnit.total units = 32 := by
  have hsizes : ∀ field ∈ [⟨"a", .integer .char⟩, ⟨"p", ⟨.struct "P", 0, some 2⟩⟩,
      (⟨"d", .plain (.floating .double)⟩ : Member)], ∃ size, nested.sizeOf field.type = .ok size ∧ 0 < size := by
    simp only [forall_mem_cons]
    exact ⟨⟨1, rfl, by decide⟩, ⟨16, rfl, by decide⟩, ⟨8, rfl, by decide⟩, by simp⟩
  obtain ⟨⟨ms, align, units, -, hlayout, hsize, halign, hpacked, -⟩, -⟩ :=
    struct_packed nested (show nested.aggregate "S" = .ok ⟨_, false⟩ from rfl) (by simp) hsizes
  cases (show ok 8 = ok align from halign)
  exact ⟨_, rfl, hsizes, ms, units, hlayout, hpacked, (ok.inj (show ok 32 = _ from hsize)).symm⟩

end Layouts

end CoreC
