import CoreC.Proofs.Domain.Representation
import CoreC.Proofs.Effect

/-! # Known integers lie in range

What a domain knows of an integer exactly lies in the range of the integer's type: every
operation that makes data of a type reduces its outcome into that type. Only the operator
`+` hands its operand on as it is.
-/

namespace CoreC

open Domain Target

variable {type : IntType} {t : Target} {a n : Int}

namespace Target

theorem inRange_arith {op : BinOp} {b : Int} (hn : t.arith type op a b = .ok n) : t.InRange type n := by
  unfold arith at hn
  cases op
  all_goals dsimp only at hn
  all_goals try split at hn
  all_goals cases hn
  all_goals exact t.inRange_reduce type _

theorem inRange_arithUnary {op : UnOp} (ha : t.InRange type a) (hn : t.arithUnary type op a = .ok n) :
    t.InRange type n := by
  cases op <;> cases hn
  · exact t.inRange_reduce type _
  · exact ha
  · exact t.inRange_reduce type _

end Target

/-- What the data tell of an integer exactly lies in the range of the type. -/
def Domain.Within {ι : Type} (φ : Type) [Domain ι φ] (t : Target) (type : IntType) (a : ι) : Prop :=
  ∀ n, known? φ a = some n → t.InRange type n

/-- Data that operations of the domain make for a type are within the type. -/
class Domain.Ranged (ι φ : Type) [Domain ι φ] : Prop where
  ofInt : ∀ {t : Target} {type : IntType} {n : Int}, t.InRange type n →
    Within φ t type (ofInt φ n : ι)
  arith : ∀ {t : Target} {type : IntType} {op : BinOp} {a b : ι} {results : List ι},
    arith φ t type op a b = .ok results → ∀ x ∈ results, Within φ t type x
  unary : ∀ {t : Target} {type : IntType} {op : UnOp} {a : ι} {results : List ι},
    Within φ t type a → unary φ t type op a = .ok results →
    ∀ x ∈ results, Within φ t type x
  cast : ∀ (t : Target) (source wanted : IntType) (a : ι),
    ∀ x ∈ Domain.cast φ t source wanted a, Within φ t wanted x
  ofBytes : ∀ {t : Target} {type : IntType} {bytes : BytePattern} {results : List ι},
    Domain.ofBytes φ t type bytes = .ok results → ∀ x ∈ results, Within φ t type x
  intOfFloat : ∀ {t : Target} {type : IntType} {a : φ} {results : List ι},
    intOfFloat t type a = .ok results → ∀ x ∈ results, Within φ t type x

namespace Exact

theorem within_iff : Within Double t type n ↔ t.InRange type n := by
  constructor
  · intro hwithin
    exact hwithin n rfl
  · intro hn k hk
    cases hk
    exact hn

instance : Ranged Int Double where
  ofInt hn := within_iff.mpr hn
  arith h := by
    obtain ⟨n, hn, rfl⟩ := exists_of_map_ok h
    simpa [within_iff] using inRange_arith hn
  unary ha h := by
    obtain ⟨n, hn, rfl⟩ := exists_of_map_ok h
    simpa [within_iff] using inRange_arithUnary (within_iff.mp ha) hn
  cast t _ wanted a := by simpa [within_iff, Domain.cast] using t.inRange_reduce wanted a
  ofBytes {t type _ _} h x hx := by
    obtain ⟨patterns, -, hresults⟩ := exists_of_bind_ok h
    cases hresults
    obtain ⟨pattern, -, rfl⟩ := List.mem_map.mp (List.mem_eraseDups.mp hx)
    exact within_iff.mpr (t.inRange_decode type pattern)
  intOfFloat {t type _ _} h := by
    change intOfFloat _ _ _ = _ at h
    unfold intOfFloat at h
    split at h <;> cases h
    simpa [within_iff] using t.inRange_reduce type _

end Exact

namespace Bounded

theorem within_top (t : Target) (type : IntType) : Within Sign t type Bounded.top := by
  intro n hn
  cases hn

theorem within_known : Within Sign t type (Bounded.known n) ↔ t.InRange type n := by
  constructor
  · intro hwithin
    exact hwithin n rfl
  · intro hn k hk
    cases hk
    exact hn

theorem within_ofInt (hn : t.InRange type n) : Within Sign t type (Bounded.ofInt n) := by
  unfold ofInt
  split
  · exact within_known.mpr hn
  · exact within_top t type

instance : Ranged Bounded Sign where
  ofInt hn := within_ofInt hn
  arith {t type op a b results} h := by
    change Bounded.arith _ _ _ _ _ = _ at h
    unfold Bounded.arith at h
    split at h
    · obtain ⟨n, hn, rfl⟩ := exists_of_map_ok h
      simpa using within_ofInt (inRange_arith hn)
    · split at h <;> cases h
      simpa using within_top t type
  unary {t type op a results} ha h := by
    cases a with
    | known x =>
      obtain ⟨n, hn, rfl⟩ := exists_of_map_ok h
      simpa using within_ofInt (inRange_arithUnary (within_known.mp ha) hn)
    | top =>
      cases h
      simpa using within_top t type
  cast t source wanted a := by
    cases a with
    | known x => simpa [Domain.cast, Bounded.cast] using within_ofInt (t.inRange_reduce wanted x)
    | top => simpa [Domain.cast, Bounded.cast] using within_top t wanted
  ofBytes {t type bytes results} h := by
    cases h
    unfold Bounded.ofBytes
    split
    · simpa using within_ofInt (t.inRange_decode type _)
    · simpa using within_top t type
  intOfFloat {t type a results} h := by
    cases h
    -- A floating zero is cut to zero, which every type has.
    split
    · simpa using within_known.mpr (t.inRange_zero type)
    · simpa using within_top t type

end Bounded

end CoreC
