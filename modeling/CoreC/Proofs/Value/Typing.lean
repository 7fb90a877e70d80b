import CoreC.Machine.StaticType
import CoreC.Proofs.Memory.Typed

/-! # Values of types

A value suits a type if an expression of that type may have it: a number of exactly the type,
with a known integer in range, an address where the type is a pointer or an array, or the mark
of a cell that was never written. Nothing is known of what is cast to `void`, and of what stands
for a function; no value is a struct or a union. Operators take values that suit the types of
their operands to values that suit the type of the result, as long as no operand is void or a
function.
-/

namespace CoreC

open CType Domain List

variable {size : Nat} {address : Address}

/-- The type is that of an address. -/
def CType.isAddress (type : CType) : Bool := type.isPointer || type.isArray

/-- The type of something that arithmetic takes: neither `void` nor a function. -/
def CType.IsOperand (type : CType) : Prop := type ≠ .void ∧ type ≠ .plain .function

instance (type : CType) : Decidable type.IsOperand := inferInstanceAs (Decidable (_ ∧ _))

variable {type : CType}

theorem CType.isAddress_decayed (htype : type.isAddress = true) :
    type.decayed.isAddress = true := by
  unfold decayed
  split
  · simp [isAddress, isPointer, addressOf, pointerTo, element]
  · exact htype

theorem FloatKind.wider_self (kind : FloatKind) : kind.wider kind = kind := by
  unfold FloatKind.wider
  simp

namespace Value

variable {ι φ : Type} [Domain ι φ] {t : Target}

/-- The value is one that an expression of the type may have. -/
inductive Suits (t : Target) : CType → Value ι φ → Prop where
  | uninitialized (type : CType) (scalar : Scalar) : Suits t type (.uninitialized scalar)
  | int {int : IntType} {data : ι} (hdata : Within φ t int data) :
      Suits t (.integer int) (.int data int)
  | float (kind : FloatKind) (data : φ) : Suits t (.floating kind) (.float data kind)
  | pointer {type : CType} (htype : type.isAddress = true) (address : Address) (pointeeSize : Nat) :
      Suits t type (.pointer address pointeeSize)
  | callable {type : CType} (htype : type.isAddress = true) (name : String) :
      Suits t type (.function name)
  | void (v : Value ι φ) : Suits t .void v
  | function (v : Value ι φ) : Suits t (.plain .function) v

variable {v : Value ι φ}

/-- What is stored in an object of a type suits the type. -/
theorem Fits.suits {layouts : Layouts} {scalar : Scalar}
    (hscalar : layouts.scalar type = .ok scalar) (hv : v.Fits t scalar) :
    v.Suits t type := by
  obtain ⟨base, pointers, length⟩ := type
  unfold Layouts.scalar Resolver.scalar at hscalar
  split at hscalar
  · cases hscalar
  next harray =>
    have hlength : length = none := by simpa [isArray] using harray
    subst hlength
    by_cases hpointers : pointers = 0
    · -- A plain type: its class tells the type, unless it is a function.
      subst hpointers
      cases base with
      | function => exact .function v
      | integer int =>
        cases hscalar
        cases hv with
        | uninitialized => exact .uninitialized _ _
        | int hdata => exact .int hdata
      | floating kind =>
        cases hscalar
        cases hv with
        | uninitialized => exact .uninitialized _ _
        | float => exact .float kind _
      | void | struct | union => cases hscalar
    · -- Anything behind a pointer is an address, or a function.
      have haddress : isAddress ⟨base, pointers, none⟩ = true := by
        simp [isAddress, isPointer, Nat.pos_of_ne_zero hpointers]
      have hclass : scalar = .function ∨ ∃ size, scalar = .pointer size := by
        split at hscalar
        · cases hscalar
          exact .inl rfl
        · rw [if_pos (Nat.pos_of_ne_zero hpointers)] at hscalar
          obtain ⟨step, -, hscalar⟩ := exists_of_bind_ok hscalar
          cases hscalar
          exact .inr ⟨_, rfl⟩
      rcases hclass with rfl | ⟨size, rfl⟩
      · cases hv with
        | uninitialized => exact .uninitialized _ _
        | function name => exact .callable haddress name
        | null size => exact .pointer haddress .null size
      · cases hv with
        | uninitialized => exact .uninitialized _ _
        | pointer _ address => exact .pointer haddress address size
        | callable _ name => exact .callable haddress name

section Inversion

variable {type : CType} (htype : type.IsOperand)

include htype

theorem Suits.eq_integer {data : ι} {int : IntType} (hv : Suits t type (.int data int : Value ι φ)) :
    type = .integer int := by
  cases hv with
  | int => rfl
  | void => exact absurd rfl htype.1
  | function => exact absurd rfl htype.2

theorem Suits.eq_floating {data : φ} {kind : FloatKind}
    (hv : Suits t type (.float data kind : Value ι φ)) : type = .floating kind := by
  cases hv with
  | float => rfl
  | void => exact absurd rfl htype.1
  | function => exact absurd rfl htype.2

theorem Suits.isAddress (hv : Suits t type (.pointer address size : Value ι φ)) :
    type.isAddress = true := by
  cases hv with
  | pointer haddress => exact haddress
  | void => exact absurd rfl htype.1
  | function => exact absurd rfl htype.2

end Inversion

variable {a b : Value ι φ}

section Results

theorem forall_suits_int {int : IntType} {results : List ι}
    (hresults : ∀ x ∈ results, Within φ t int x) :
    ∀ v ∈ results.map fun x => (Value.int x int : Value ι φ), v.Suits t (.integer int) :=
  forall_mem_map.mpr fun x hx => .int (hresults x hx)

theorem suits_movePointer (htype : type.isAddress = true) {op : BinOp} {count : Value ι φ}
    {out : ValueSet ι φ}
    (hout : movePointer op address size count = .ok out) : ∀ v ∈ out.items, v.Suits t type := by
  obtain ⟨n, -, hsingle⟩ := exists_of_bind_ok hout
  cases hsingle
  exact forall_mem_singleton.mpr (.pointer htype _ _)

variable [Ranged ι φ]

theorem suits_ofInt (t : Target) (int : IntType) (n : Int) :
    (ofInt t int n : Value ι φ).Suits t (.integer int) :=
  .int (Ranged.ofInt (t.inRange_reduce int n))

theorem forall_suits_ofBool (results : List Bool) :
    ∀ v ∈ results.map (ofBool t : Bool → Value ι φ), v.Suits t .int :=
  forall_mem_map.mpr fun _ _ => suits_ofInt t .int _

variable [DecidableEq ι] [BEq φ] {out : ValueSet ι φ}

open ValueSet

theorem suits_ofOutcomes (t : Target) (results : List Bool) :
    ∀ v ∈ (ofOutcomes t results : ValueSet ι φ).items, v.Suits t .int :=
  forall_mem_ofList (forall_suits_ofBool results)

/-! ## Operators -/

variable {op : BinOp}

theorem suits_intOperation {a b : ι} {left right : IntType}
    (hout : intOperation t op a left b right = .ok out) :
    ∀ v ∈ out.items, v.Suits t (if op.isRelational then .int else .integer (left.common right)) := by
  obtain ⟨results, hresults, hlist⟩ := exists_of_bind_ok hout
  cases hlist
  apply forall_mem_ofList
  intro v hv
  obtain ⟨outcomes, houtcomes, hmem⟩ := mem_flatten.mp hv
  obtain ⟨pair, -, hpair⟩ := (mem_of_mapM_ok hresults).2 outcomes houtcomes
  dsimp only at hpair
  split at hpair
  next hop =>
    cases hpair
    rw [if_pos hop]
    exact forall_suits_ofBool _ v hmem
  next hop =>
    obtain ⟨values, hvalues, rfl⟩ := exists_of_map_ok hpair
    rw [if_neg hop]
    exact forall_suits_int (Ranged.arith hvalues) v hmem

theorem suits_floatOperation {a b : φ} {left right : FloatKind}
    (hout : floatOperation t op a left b right = .ok out) :
    ∀ v ∈ out.items, v.Suits t (if op.isRelational then .int else .floating (left.wider right)) := by
  unfold floatOperation at hout
  dsimp only at hout
  split at hout
  next hop =>
    cases hout
    rw [if_pos hop]
    exact suits_ofOutcomes t _
  next hop =>
    obtain ⟨results, -, rfl⟩ := exists_of_map_ok hout
    rw [if_neg hop]
    exact forall_mem_ofList (forall_mem_map.mpr fun x _ => .float _ x)

theorem suits_pointerOperation {a b : Address} (hout : pointerOperation t op a size b = .ok out) :
    ∀ v ∈ out.items, v.Suits t (if op.isRelational then .int else .integer .long) := by
  unfold pointerOperation at hout
  split at hout
  next hsub =>
    subst hsub
    split at hout <;> cases hout
    exact forall_mem_singleton.mpr (suits_ofInt t .long _)
  next =>
    split at hout
    next hop =>
      cases hout
      rw [if_pos hop]
      exact suits_ofOutcomes t _
    next => cases hout

/-- A comparison gives truth values, whatever it compares. -/
theorem suits_operate_relational (hop : op.isRelational = true) (hout : operate t op a b = .ok out) :
    ∀ v ∈ out.items, v.Suits t .int := by
  cases operates_of_ok hout with
  | ints hout => simpa only [if_pos hop] using suits_intOperation hout
  | floats hout | floatInt hout | intFloat hout =>
    simpa only [if_pos hop] using suits_floatOperation hout
  | pointers hout | pointerNull _ hout | nullPointer _ hout =>
    simpa only [if_pos hop] using suits_pointerOperation hout
  | move hmoves => rcases hmoves with rfl | rfl <;> cases hop
  | moveBy hadd =>
    subst hadd
    cases hop
  | functions => exact suits_ofOutcomes t _

/-- Arithmetic on values of two types gives values of the type of the result. -/
theorem suits_operate_arithmetic (hop : op.isRelational = false) {left right type : CType}
    (hleft : left.IsOperand) (hright : right.IsOperand)
    (htype : op.resultType left right = .ok type) (ha : a.Suits t left) (hb : b.Suits t right)
    (hout : operate t op a b = .ok out) : ∀ v ∈ out.items, v.Suits t type := by
  have hop : ¬op.isRelational = true := by simp [hop]
  unfold BinOp.resultType at htype
  rw [if_neg hop] at htype
  cases operates_of_ok hout with
  | ints hout =>
    obtain rfl := ha.eq_integer hleft
    obtain rfl := hb.eq_integer hright
    cases htype
    simpa only [if_neg hop] using suits_intOperation hout
  | floats hout =>
    obtain rfl := ha.eq_floating hleft
    obtain rfl := hb.eq_floating hright
    cases htype
    simpa only [if_neg hop] using suits_floatOperation hout
  | floatInt hout =>
    obtain rfl := ha.eq_floating hleft
    obtain rfl := hb.eq_integer hright
    cases htype
    simpa only [if_neg hop, FloatKind.wider_self] using suits_floatOperation hout
  | intFloat hout =>
    obtain rfl := ha.eq_integer hleft
    obtain rfl := hb.eq_floating hright
    cases htype
    simpa only [if_neg hop, FloatKind.wider_self] using suits_floatOperation hout
  | pointers hout =>
    have haddress : (left.isPointer || left.isArray) = true := ha.isAddress hleft
    rw [haddress, show (right.isPointer || right.isArray) = true from hb.isAddress hright] at htype
    dsimp only at htype
    split at htype <;> cases htype
    simpa only [if_neg hop] using suits_pointerOperation hout
  | pointerNull hrelational | nullPointer hrelational => exact absurd hrelational hop
  | move _ hout =>
    have haddress : (left.isPointer || left.isArray) = true := ha.isAddress hleft
    obtain rfl := hb.eq_integer hright
    rw [haddress] at htype
    cases htype
    exact suits_movePointer (isAddress_decayed haddress) hout
  | moveBy _ hout =>
    have haddress : (right.isPointer || right.isArray) = true := hb.isAddress hright
    obtain rfl := ha.eq_integer hleft
    rw [haddress] at htype
    cases htype
    exact suits_movePointer (isAddress_decayed haddress) hout
  | functions hequality =>
    -- Functions are compared only.
    rcases hequality with rfl | rfl <;> exact absurd rfl hop

/-- The operators `-`, `+` and `~` keep the type of their operand. -/
theorem suits_operateUnary {op : UnOp} (hop : op ≠ .not)
    (hv : v.Suits t type) (hout : v.operateUnary t op = .ok out) :
    ∀ w ∈ out.items, w.Suits t type := by
  unfold operateUnary at hout
  split at hout
  · cases hout
  rw [if_neg hop] at hout
  cases hv with
  | uninitialized | pointer | callable => cases hout
  | int hdata =>
    obtain ⟨results, hresults, rfl⟩ := exists_of_map_ok hout
    exact forall_mem_ofList (forall_suits_int (Ranged.unary hdata hresults))
  | float kind data =>
    obtain ⟨results, -, rfl⟩ := exists_of_map_ok hout
    exact forall_mem_ofList (forall_mem_map.mpr fun x _ => .float kind x)
  | void => exact fun w _ => .void w
  | function => exact fun w _ => .function w

theorem suits_operateUnary_not
    (hout : v.operateUnary t .not = .ok out) : ∀ w ∈ out.items, w.Suits t .int := by
  unfold operateUnary at hout
  split at hout
  · cases hout
  · rw [if_pos rfl] at hout
    obtain ⟨results, -, rfl⟩ := exists_of_map_ok hout
    exact suits_ofOutcomes t _

end Results

end Value

end CoreC
