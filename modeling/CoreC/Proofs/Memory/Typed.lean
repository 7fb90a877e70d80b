import CoreC.Proofs.Domain.Ranged
import CoreC.Proofs.Value.Membership

/-! # Typed memory

A value fits a representation class if it may stand in a cell of that class: it has exactly
the class's type, with a known integer in range, or it marks a cell that was never written.
Pointer cells may also hold functions, and function cells the null pointer.

Reading, converting and decoding give values that fit the class they are asked for, whatever
they are made from. So memory in which every cell holds only values that fit it stays so.
-/

namespace CoreC

open Domain List Value

variable {ι φ : Type} {scalar : Scalar} {v : Value ι φ} {out : ValueSet ι φ}

namespace ValueSet

variable [DecidableEq ι] [BEq φ] {P : Value ι φ → Prop}

theorem forall_mem_lift₂ {s t : ValueSet ι φ}
    {f : Value ι φ → Value ι φ → Except Fault (ValueSet ι φ)}
    (hf : ∀ a ∈ s.items, ∀ b ∈ t.items, ∀ given, f a b = .ok given → ∀ v ∈ given.items, P v)
    (hout : s.lift₂ t f = .ok out) : ∀ v ∈ out.items, P v := by
  refine forall_mem_foldlM (fun a ha row hrow => ?_) hout
  exact forall_mem_foldlM (fun b hb => hf a ha b hb) hrow

end ValueSet

open ValueSet

namespace Value

variable [Domain ι φ]

/-- The value may stand in a cell of the representation class. -/
inductive Fits (t : Target) : Scalar → Value ι φ → Prop where
  | uninitialized (scalar : Scalar) : Fits t scalar (.uninitialized scalar)
  | int {type : IntType} {data : ι} (hdata : Within φ t type data) :
      Fits t (.int type) (.int data type)
  | float (kind : FloatKind) (data : φ) : Fits t (.float kind) (.float data kind)
  | pointer (pointeeSize : Nat) (address : Address) :
      Fits t (.pointer pointeeSize) (.pointer address pointeeSize)
  | callable (pointeeSize : Nat) (name : String) : Fits t (.pointer pointeeSize) (.function name)
  | function (name : String) : Fits t .function (.function name)
  | null (pointeeSize : Nat) : Fits t .function (.null pointeeSize)

variable {t : Target}

/-- A compatible class sees a value that fits. -/
theorem Fits.retag {held : Scalar} (hv : v.Fits t held)
    (hcompatible : held.compatible scalar = true) : (Store.retag scalar v).Fits t scalar := by
  have hcases : (∃ m n, held = .pointer m ∧ scalar = .pointer n) ∨ held = scalar := by
    cases held <;> cases scalar <;> simp_all [Scalar.compatible]
  rcases hcases with ⟨m, n, rfl, rfl⟩ | rfl
  · -- Only the size that a pointer is said to lead to may differ.
    cases hv with
    | uninitialized => exact .uninitialized _
    | pointer _ address => exact .pointer n address
    | callable _ name => exact .callable n name
  · cases hv with
    | uninitialized => exact .uninitialized _
    | int hdata => exact .int hdata
    | float kind data => exact .float kind data
    | pointer size address => exact .pointer size address
    | callable size name => exact .callable size name
    | function name => exact .function name
    | null size => exact .null size

/-- An exact integer that was reduced into its type fits it. -/
theorem fits_ofInt [Ranged ι φ] (t : Target) (type : IntType) (n : Int) :
    (ofInt t type n : Value ι φ).Fits t (.int type) :=
  .int (Ranged.ofInt (t.inRange_reduce type n))

theorem fits_castToFloat {kind : FloatKind} {w : Value ι φ} (hw : v.castToFloat kind = .ok w) :
    w.Fits t (.float kind) := by
  cases v <;> cases hw
  · exact .float kind _
  · exact .float kind _
  · exact .uninitialized _

theorem forall_fits_int {type : IntType} {results : List ι}
    (hresults : ∀ x ∈ results, Within φ t type x) :
    ∀ v ∈ results.map fun x => (int x type : Value ι φ), v.Fits t (.int type) := by
  intro v hv
  obtain ⟨x, hx, rfl⟩ := mem_map.mp hv
  exact .int (hresults x hx)

variable [Ranged ι φ] [DecidableEq ι] [BEq φ]

theorem fits_castToInt {type : IntType} (hout : v.castToInt t type = .ok out) :
    ∀ w ∈ out.items, w.Fits t (.int type) := by
  cases v with
  | int data own =>
    cases hout
    exact forall_mem_ofList (forall_fits_int (Ranged.cast t own type data))
  | float data kind =>
    obtain ⟨results, hresults, rfl⟩ := exists_of_map_ok hout
    exact forall_mem_ofList (forall_fits_int (Ranged.intOfFloat hresults))
  | uninitialized scalar =>
    cases hout
    exact forall_mem_singleton.mpr (.uninitialized _)
  | pointer | function => cases hout

end Value

namespace ValueSet

variable [Domain ι φ] [DecidableEq ι] [BEq φ] {t : Target}

/-- A cell of the representation class may hold the set: every member fits it. -/
structure Fits (t : Target) (scalar : Scalar) (s : ValueSet ι φ) : Prop where
  tidy : s.Tidy
  forall_mem : ∀ v ∈ s.items, v.Fits t scalar

theorem fits_singleton (hv : v.Fits t scalar) : (singleton v).Fits t scalar :=
  ⟨rfl, forall_mem_singleton.mpr hv⟩

theorem fits_ofList {values : List (Value ι φ)} (hvalues : ∀ v ∈ values, v.Fits t scalar) :
    (ofList values).Fits t scalar := ⟨Tidy.insertAll (s := .empty) rfl values, forall_mem_ofList hvalues⟩

theorem fits_foldlM {α : Type} {f : α → Except Fault (ValueSet ι φ)} {items : List α}
    (hf : ∀ a ∈ items, ∀ given, f a = .ok given → given.Fits t scalar)
    (hout : items.foldlM (fun values a => (f a).map values.union) .empty = .ok out) : out.Fits t scalar :=
  ⟨foldlM_induction hout (fun _ given hs => hs.insertAll given.items) rfl,
    forall_mem_foldlM (fun a ha given hgiven => (hf a ha given hgiven).forall_mem) hout⟩

theorem fits_ofBytes? [Ranged ι φ] {bytes : BytePattern} (hout : ofBytes? t scalar bytes = some (.ok out)) :
    out.Fits t scalar := by
  unfold ofBytes? at hout
  split at hout
  · cases hout
    exact fits_singleton (.uninitialized scalar)
  · cases scalar with
    | int type =>
      obtain ⟨results, hresults, rfl⟩ := exists_of_map_ok (Option.some.inj hout)
      exact fits_ofList (forall_fits_int (Ranged.ofBytes hresults))
    | float kind =>
      obtain ⟨results, -, rfl⟩ := exists_of_map_ok (Option.some.inj hout)
      exact fits_ofList (forall_mem_map.mpr fun x _ => .float kind x)
    | pointer | function => cases hout

end ValueSet

namespace Store

variable [Domain ι φ] [DecidableEq ι] [BEq φ]

/-- Every cell holds only values that fit it. -/
def Typed (s : Store ι φ) : Prop :=
  ∀ {key : Nat} {cell : Cell ι φ}, s.cells[key]? = some cell → cell.contents.Fits s.target cell.scalar

omit [DecidableEq ι] [BEq φ] in
theorem fits_pointerOf (s : Store ι φ) (number pointeeSize : Nat) :
    (s.pointerOf number pointeeSize).Fits s.target (.pointer pointeeSize) := by
  unfold pointerOf
  split
  · exact .pointer pointeeSize .null
  · dsimp only
    split
    · exact .pointer pointeeSize _
    · exact .pointer pointeeSize _

section Access

variable [Ranged ι φ] {scalar : Scalar} {s : Store ι φ} {out : ValueSet ι φ}

theorem fits_decode {bytes : BytePattern} (hout : s.decode scalar bytes = .ok out) :
    out.Fits s.target scalar := by
  unfold decode at hout
  split at hout
  next result hresult =>
    subst hout
    exact fits_ofBytes? hresult
  next pointeeSize _ =>
    obtain ⟨numbers, -, hlist⟩ := exists_of_bind_ok hout
    cases hlist
    apply fits_ofList
    intro v hv
    obtain ⟨number, -, rfl⟩ := mem_map.mp hv
    exact s.fits_pointerOf number _
  next => cases hout

theorem Typed.read (hs : s.Typed) {address : Address} (hout : s.read address scalar = .ok out) :
    out.Fits s.target scalar := by
  obtain ⟨place, hplace, hout⟩ := exists_of_bind_ok hout
  split at hout
  next hserved =>
    cases hout
    apply fits_ofList
    intro v hv
    obtain ⟨held, hheld, rfl⟩ := mem_map.mp hv
    exact ((hs (getElem?_of_locate hplace)).forall_mem held hheld).retag hserved.2
  next =>
    obtain ⟨patterns, -, hout⟩ := exists_of_bind_ok hout
    exact fits_foldlM (fun bytes _ given hgiven => fits_decode hgiven) hout

/-- What is converted fits the wanted class, whatever it was before. -/
theorem fits_convertValue (hout : s.convertValue scalar v = .ok out) :
    ∀ w ∈ out.items, w.Fits s.target scalar := by
  unfold convertValue at hout
  split at hout
  · cases hout
    exact forall_mem_singleton.mpr (.uninitialized scalar)
  · obtain ⟨number, -, hsingle⟩ := exists_of_bind_ok hout
    cases hsingle
    exact forall_mem_singleton.mpr (fits_ofInt s.target _ _)
  · exact fits_castToInt hout
  · obtain ⟨cast, hcast, rfl⟩ := exists_of_map_ok hout
    exact forall_mem_singleton.mpr (fits_castToFloat hcast)
  · cases hout
    exact forall_mem_singleton.mpr (.pointer _ _)
  · obtain ⟨n, -, hsingle⟩ := exists_of_bind_ok hout
    split at hsingle <;> cases hsingle
    · exact forall_mem_singleton.mpr (.pointer _ _)
    · exact forall_mem_singleton.mpr (s.fits_pointerOf _ _)
  · cases hout
    exact forall_mem_singleton.mpr (.callable _ _)
  · cases hout
    exact forall_mem_singleton.mpr (.function _)
  · split at hout
    next hnull =>
      cases hout
      rw [of_decide_eq_true hnull]
      exact forall_mem_singleton.mpr (.null _)
    next => cases hout
  · cases hout

theorem fits_convert {values : ValueSet ι φ} (hout : s.convert scalar values = .ok out) :
    ∀ v ∈ out.items, v.Fits s.target scalar :=
  forall_mem_foldlM (fun _ _ _ hgiven => fits_convertValue hgiven) hout

end Access

section Change

variable {s : Store ι φ}

theorem Typed.commit (hs : s.Typed) {updates : List (Nat × ValueSet ι φ)}
    (hupdates : ∀ entry ∈ updates, ∀ cell, s.cells[entry.1]? = some cell →
      entry.2.Fits s.target cell.scalar) : (s.commit updates).Typed := by
  intro key cell hcell
  rw [commit_target]
  exact contents_commit (P := fun scalar held => held.Fits s.target scalar) hs hupdates hcell

theorem Typed.addObject (hs : s.Typed) (base : Base) (units : List StorageUnit) :
    (s.addObject base units).Typed := by
  intro key cell hcell
  exact contents_addObject (P := fun scalar held => held.Fits s.target scalar) hs
    (fun scalar => fits_singleton (.uninitialized scalar)) hcell

theorem fits_merge {weak : Bool} {old fresh : ValueSet ι φ} {t : Target}
    (hold : old.Fits t scalar) (hfresh : fresh.Fits t scalar) : (merge weak old fresh).Fits t scalar := by
  unfold merge
  split
  · exact ⟨hold.tidy.insertAll _, forall_mem_insertAll hold.forall_mem hfresh.forall_mem⟩
  · exact hfresh

variable [Ranged ι φ]

theorem fits_patchCell {cell : Cell ι φ} {start : Nat} {patches : List BytePattern}
    (hout : s.patchCell cell start patches = .ok out) : out.Fits s.target cell.scalar := by
  refine fits_foldlM (fun old _ given hgiven => ?_) hout
  obtain ⟨bytes, -, hgiven⟩ := exists_of_bind_ok hgiven
  exact fits_foldlM (fun _ _ _ hdecoded => fits_decode hdecoded) hgiven

theorem Typed.updates (hs : s.Typed) {address : Address} {values : ValueSet ι φ}
    (hvalues : ∀ v ∈ values.items, v.Fits s.target scalar) {forceWeak : Bool}
    {updates : List (Nat × ValueSet ι φ)}
    (hupdates : s.updates address values scalar forceWeak = .ok updates) :
    ∀ entry ∈ updates, ∀ cell, s.cells[entry.1]? = some cell → entry.2.Fits s.target cell.scalar := by
  intro entry hentry held hheld
  obtain ⟨place, cell, fresh, -, -, hcell, hrenews, heq⟩ := exists_of_mem_updates hupdates hentry
  rw [hcell] at hheld
  cases hheld
  rw [heq]
  apply fits_merge (hs hcell)
  cases hrenews with
  | whole hcompatible =>
    apply fits_ofList
    intro v hv
    obtain ⟨given, hgiven, rfl⟩ := mem_map.mp hv
    apply (hvalues given hgiven).retag
    -- Compatibility goes both ways.
    cases hheld : held.scalar <;> cases scalar <;> simp_all [Scalar.compatible]
  | packed _ hfresh => exact fits_patchCell hfresh

theorem fits_zeroContents {cell : Cell ι φ} {contents : ValueSet ι φ}
    (hcontents : s.zeroContents cell = .ok contents) : contents.Fits s.target cell.scalar := by
  unfold zeroContents at hcontents
  split at hcontents
  next hfunction =>
    cases hcontents
    rw [hfunction]
    exact fits_singleton (.null 1)
  next => exact fits_decode hcontents

theorem fits_zeroUpdates {fuel key : Nat} {updates : List (Nat × ValueSet ι φ)}
    (hupdates : s.zeroUpdates fuel key = .ok updates) :
    ∀ entry ∈ updates, ∀ cell, s.cells[entry.1]? = some cell → entry.2.Fits s.target cell.scalar := by
  intro entry hentry held hheld
  obtain ⟨-, cell, hcell, hcontents⟩ := (renewal_zeroUpdates hupdates).of_mem .refl entry hentry
  rw [hcell] at hheld
  cases hheld
  exact fits_zeroContents hcontents

end Change

/-- The target, and memory that is typed for it. -/
def TypedFor (t : Target) (s : Store ι φ) : Prop := s.target = t ∧ s.Typed

/-- On typed memory of the target the operation leaves typed memory of the target behind,
whether it succeeds or fails. -/
abbrev Types (t : Target) {α : Type} (act : StoreM ι φ α) : Prop :=
  Keeps (fun s s' => s.TypedFor t → s'.TypedFor t) act

section Operations

variable [Ranged ι φ]

/-- Operations leave typed memory typed if they write values that fit their class. -/
theorem typing (t : Target) : Allows (fun _ => True) (fun s s' : Store ι φ => s.TypedFor t → s'.TypedFor t)
    fun s _ values scalar _ => s.TypedFor t → ∀ v ∈ values.items, v.Fits s.target scalar where
  toEvolution := .implies _
  recorded _ _ _ _ := id
  freed _ := id
  summary _ _ := id
  object _ _ _ _ hs := ⟨hs.1, Typed.addObject hs.2 _ _⟩
  written hvalues hupdates hs :=
    ⟨(commit_target _ _).trans hs.1, Typed.commit hs.2 (Typed.updates hs.2 (hvalues hs) hupdates)⟩

theorem types_zeroFill (t : Target) (base : Base) : Types t (zeroFill base : StoreM ι φ PUnit) :=
  (typing t).zeroFill base fun _ hupdates hs =>
    ⟨(commit_target _ _).trans hs.1, Typed.commit hs.2 (fits_zeroUpdates hupdates)⟩

end Operations

end Store

end CoreC
