import CoreC.Domain.Exact
import CoreC.Proofs.Memory.BytePattern
import CoreC.Proofs.Value.Operation

/-! # Certain values

In the exact domain a value that is certain stays certain: every operator, conversion and test
has one outcome on single operands. Bytes of exact values are known in full, or were never
written; either way they stand for one value again.
-/

namespace CoreC

open BytePattern List

/-! ## Definite bytes -/

/-- The byte is known in full, or was never written. -/
def PartialByte.Definite (byte : PartialByte) : Prop := byte.isExact = true ∨ byte = .uninitialized

namespace BytePattern

/-- No byte is known in part only. -/
def Definite (p : BytePattern) : Prop := ∀ byte ∈ p, byte.Definite

variable {p : BytePattern}

theorem definite_of_isExact (hp : p.isExact = true) : p.Definite :=
  fun byte hbyte => .inl (all_eq_true.mp hp byte hbyte)

theorem definite_uninitialized (length : Nat) : (uninitialized length).Definite :=
  fun _ hbyte => .inr (eq_of_mem_replicate hbyte)

section

variable (hp : p.Definite)

include hp

theorem Definite.append {q : BytePattern} (hq : q.Definite) : (p ++ q : BytePattern).Definite :=
  fun byte hbyte => (mem_append.mp hbyte).elim (hp byte) (hq byte)

theorem Definite.take (n : Nat) : Definite (p.take n) :=
  fun byte hbyte => hp byte (mem_of_mem_take hbyte)

theorem Definite.drop (n : Nat) : Definite (p.drop n) :=
  fun byte hbyte => hp byte (mem_of_mem_drop hbyte)

theorem Definite.resize (length : Nat) : (p.resize length).Definite :=
  (hp.take length).append (definite_of_isExact (isExact_zeros _))

theorem Definite.slice (offset length : Nat) : (p.slice offset length).Definite :=
  (hp.drop offset).resize length

theorem Definite.splice {patch : BytePattern} (hpatch : patch.Definite)
    (offset : Nat) : (p.splice offset patch).Definite :=
  ((hp.take offset).append (hpatch.take _)).append (hp.drop _)

theorem Definite.orZero : p.orZero.Definite := by
  intro byte hbyte
  obtain ⟨old, hold, rfl⟩ := mem_map.mp hbyte
  rcases hp old hold with hexact | rfl
  · obtain ⟨value, rfl⟩ := PartialByte.eq_exact_of_isExact hexact
    exact .inl rfl
  · exact .inl rfl

theorem Definite.isExact (hwritten : p.isInitialized = true) : p.isExact = true := by
  refine all_eq_true.mpr fun byte hbyte => ?_
  rcases hp byte hbyte with hexact | rfl
  · exact hexact
  · exact absurd (all_eq_true.mp hwritten _ hbyte) (by simp [PartialByte.isInitialized])

end

/-- Bytes known in full stand for one number. -/
theorem length_of_enumerate (hp : p.isExact = true) {limit : Nat} {numbers : List Nat}
    (hnumbers : p.enumerate limit = .ok numbers) : numbers.length = 1 := by
  by_cases hlength : p.length ≤ maxLength
  · rw [enumerate_of_isExact hp hlength] at hnumbers
    cases hnumbers
    rfl
  · simp [enumerate, isInitialized_of_isExact hp, Nat.lt_of_not_le hlength] at hnumbers

/-- There is one pattern, and no byte of it is known in part only. -/
def Sole (patterns : List BytePattern) : Prop := ∃ p, patterns = [p] ∧ p.Definite

theorem Sole.map {patterns : List BytePattern} (hpatterns : Sole patterns)
    {f : BytePattern → BytePattern} (hf : ∀ p, p.Definite → (f p).Definite) :
    Sole (patterns.map f) := by
  obtain ⟨p, rfl, hp⟩ := hpatterns
  exact ⟨f p, rfl, hf p hp⟩

end BytePattern

/-! ## Sets with one member -/

namespace ValueSet

variable {ι φ : Type}

/-- Exactly one value is possible. -/
def Single (s : ValueSet ι φ) : Prop := s.items.length = 1

theorem single_singleton (v : Value ι φ) : (singleton v).Single := rfl

variable [DecidableEq ι] [BEq φ]

theorem single_ofList {values : List (Value ι φ)} (hvalues : values.length = 1) :
    (ofList values).Single := by
  obtain ⟨v, rfl⟩ := length_eq_one_iff.mp hvalues
  rfl

theorem single_map {α : Type} {items : List α} (hitems : items.length = 1) (f : α → Value ι φ) :
    (ofList (items.map f)).Single := single_ofList (by rw [length_map, hitems])

/-- What one item gives is all that is gathered. -/
theorem single_foldlM {α : Type} {f : α → Except Fault (ValueSet ι φ)} {items : List α}
    {out : ValueSet ι φ} (hitems : items.length = 1)
    (hf : ∀ a ∈ items, ∀ values, f a = .ok values → values.Single)
    (hout : items.foldlM (fun values a => (f a).map values.union) empty = .ok out) : out.Single := by
  obtain ⟨a, rfl⟩ := length_eq_one_iff.mp hitems
  obtain ⟨united, hunited, hdone⟩ := exists_of_bind_ok hout
  cases hdone
  obtain ⟨values, hvalues, rfl⟩ := exists_of_map_ok hunited
  exact single_ofList (hf a mem_cons_self values hvalues)

theorem quota_one : Quota ι φ fun items => items.length = 1 where
  one _ := rfl
  of_length hlength hitems := hlength.trans hitems
  flatMap {_ _ items f} hitems hf := by
    obtain ⟨a, rfl⟩ := length_eq_one_iff.mp hitems
    simpa using hf a mem_cons_self
  ofList := single_ofList
  foldlM := single_foldlM

end ValueSet

/-! ## Operators -/

variable {v : Value Int Double}

/-- Every operation of the exact domain that succeeds has one result. -/
theorem Exact.yields_one : Domain.Yields Int Double fun items => items.length = 1 where
  arith h := by
    obtain ⟨n, -, rfl⟩ := exists_of_map_ok h
    rfl
  compare _ _ _ := rfl
  unary h := by
    obtain ⟨n, -, rfl⟩ := exists_of_map_ok h
    rfl
  truth _ := rfl
  cast _ _ _ _ := rfl
  intOfFloat h := by
    change intOfFloat _ _ _ = _ at h
    unfold intOfFloat at h
    split at h <;> cases h
    rfl
  floatArith {kind op x y results} h := by
    change floatArith _ _ _ _ = _ at h
    cases op <;> cases h <;> rfl
  floatCompare _ _ _ := rfl
  floatUnary {op x results} h := by
    change floatUnary _ _ = _ at h
    cases op <;> cases h <;> rfl
  floatTruth _ := rfl

/-! ## Memory representation -/

namespace Store

open ValueSet

variable {s : Store Int Double} {scalar : Scalar}

theorem single_convert {values out : ValueSet Int Double} (hvalues : values.Single)
    (hout : s.convert scalar values = .ok out) : out.Single := quota_one.convert Exact.yields_one hvalues hout

/-- The bytes of an exact value are known in full, or were never written. -/
theorem definite_valueBytes {size : Nat} {bytes : BytePattern}
    (hbytes : s.valueBytes size v = .ok bytes) : bytes.Definite := by
  have hnumber n length : (ofNat n length).Definite :=
    definite_of_isExact (isExact_ofNat n length)
  cases v with
  | int data type =>
    cases hbytes
    exact (hnumber _ _).resize size
  | float data kind =>
    cases hbytes
    exact (hnumber _ _).resize size
  | uninitialized scalar =>
    cases hbytes
    exact (definite_uninitialized _).resize size
  | pointer address pointeeSize =>
    obtain ⟨number, -, rfl⟩ := exists_of_map_ok hbytes
    exact (hnumber _ _).resize size
  | function => cases hbytes

theorem sole_valueBytes {size : Nat} {values : ValueSet Int Double} (hvalues : values.Single)
    {patterns : List BytePattern} (hpatterns : values.items.mapM (s.valueBytes size) = .ok patterns) :
    Sole patterns := by
  obtain ⟨p, rfl⟩ := length_eq_one_iff.mp ((length_of_mapM_ok hpatterns).trans hvalues)
  obtain ⟨v, -, hv⟩ := (mem_of_mapM_ok hpatterns).2 p mem_cons_self
  exact ⟨p, rfl, definite_valueBytes hv⟩

/-- Definite bytes stand for one value. -/
theorem single_decode {bytes : BytePattern} (hbytes : bytes.Definite)
    {out : ValueSet Int Double} (hout : s.decode scalar bytes = .ok out) : out.Single := by
  by_cases hwritten : bytes.isInitialized = true
  · have hexact := hbytes.isExact hwritten
    unfold decode Value.ofBytes? at hout
    rw [hwritten] at hout
    cases scalar with
    | int type =>
      obtain ⟨results, hresults, rfl⟩ := exists_of_map_ok hout
      obtain ⟨patterns, hpatterns, hresults⟩ := exists_of_bind_ok hresults
      cases hresults
      have hone := length_of_enumerate (isExact_resize hexact _) hpatterns
      obtain ⟨pattern, rfl⟩ := length_eq_one_iff.mp hone
      exact single_singleton _
    | float kind =>
      obtain ⟨results, hresults, rfl⟩ := exists_of_map_ok hout
      change Exact.floatOfBytes _ _ _ = _ at hresults
      unfold Exact.floatOfBytes at hresults
      split at hresults <;> cases hresults
      exact single_singleton _
    | pointer pointeeSize =>
      obtain ⟨numbers, hnumbers, hlist⟩ := exists_of_bind_ok hout
      cases hlist
      exact single_map (length_of_enumerate (isExact_resize hexact _) hnumbers) _
    | function => cases hout
  · unfold decode Value.ofBytes? at hout
    rw [Bool.not_eq_true] at hwritten
    rw [hwritten] at hout
    cases hout
    exact single_singleton _

end Store

end CoreC
