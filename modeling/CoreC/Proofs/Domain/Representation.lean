import Mathlib.Data.List.Forall2
import CoreC.Domain.Bounded
import CoreC.Proofs.Domain.IntegerPattern

/-! # Numbers that an abstract element stands for

An element of an abstract domain stands for exact integers: a sign for the integers of that
sign, a bounded element for its own integer, and the top of either for all of them. A domain
keeps faith with this in memory if it spells an element with bytes that leave open no less
than the bytes of the integers it stands for, and if what it reads from bytes stands for the
integer that the exact bytes spell.
-/

namespace CoreC

open BytePattern List Domain

namespace PartialByte

/-- The first byte leaves open what the second one, if it was written, knows exactly. -/
inductive Covers : PartialByte → PartialByte → Prop where
  | uninitialized : Covers .uninitialized .uninitialized
  | bits {value mask word : UInt8} (hagree : word &&& mask = value &&& mask) :
      Covers (.bits value mask) (exact word)

theorem Covers.refl_exact (word : UInt8) : (exact word).Covers (exact word) := .bits rfl

theorem covers_unknown (word : UInt8) : unknown.Covers (exact word) := by
  apply Covers.bits
  simp

namespace Covers

variable {byte known : PartialByte}

variable (hcovers : byte.Covers known)

include hcovers

theorem isInitialized_eq : byte.isInitialized = known.isInitialized := by cases hcovers <;> rfl

theorem isExact (hinit : known.isInitialized = true) : known.isExact = true := by
  cases hcovers with
  | uninitialized => cases hinit
  | bits => rfl

/-- A byte that leaves nothing open covers only itself. -/
theorem eq_of_isExact (hexact : byte.isExact = true) : byte = known := by
  cases hcovers with
  | uninitialized => rfl
  | bits hagree =>
    simp only [PartialByte.isExact, decide_eq_true_eq] at hexact
    subst hexact
    have hall (word : UInt8) : word &&& 0xff = word := UInt8.and_neg_one
    rw [hall, hall] at hagree
    rw [hagree, exact]

theorem orZero : byte.orZero.Covers known.orZero := by
  cases hcovers with
  | uninitialized => exact .refl_exact 0
  | bits hagree => exact .bits hagree

end Covers

end PartialByte

namespace BytePattern

/-- Byte by byte, the first pattern leaves open what the second one knows. -/
def Covers (pattern known : BytePattern) : Prop := Forall₂ PartialByte.Covers pattern known

theorem covers_of_isExact {p : BytePattern} (hp : p.isExact = true) : p.Covers p := by
  apply forall₂_same.mpr
  intro byte hbyte
  obtain ⟨word, rfl⟩ := PartialByte.eq_exact_of_isExact (all_eq_true.mp hp byte hbyte)
  exact .refl_exact word

theorem covers_uninitialized (length : Nat) :
    (uninitialized length).Covers (uninitialized length) := by
  apply forall₂_same.mpr
  intro byte hbyte
  rw [eq_of_mem_replicate hbyte]
  exact .uninitialized

theorem unknown_covers {p : BytePattern} (hp : p.isExact = true) {length : Nat}
    (hlength : p.length = length) : (unknown length).Covers p := by
  induction p generalizing length with
  | nil =>
    subst hlength
    exact .nil
  | cons byte rest ih =>
    obtain ⟨⟨word, rfl⟩, hrest⟩ := isExact_cons hp
    subst hlength
    exact .cons (PartialByte.covers_unknown word) (ih hrest rfl)

namespace Covers

variable {p q patch known : BytePattern}

section

variable (hcovers : p.Covers q)

include hcovers

theorem length_eq : p.length = q.length := Forall₂.length_eq hcovers

theorem isInitialized_eq : p.isInitialized = q.isInitialized := by
  unfold BytePattern.isInitialized
  induction hcovers with
  | nil => rfl
  | cons hbyte _ ih => rw [all_cons, all_cons, ih, hbyte.isInitialized_eq]

theorem isExact (hinit : q.isInitialized = true) : q.isExact = true := by
  unfold BytePattern.isInitialized at hinit
  unfold BytePattern.isExact
  induction hcovers with
  | nil => rfl
  | cons hbyte _ ih =>
    rw [all_cons, Bool.and_eq_true] at hinit ⊢
    exact ⟨hbyte.isExact hinit.1, ih hinit.2⟩

theorem eq_of_isExact (hexact : p.isExact = true) : p = q := by
  unfold BytePattern.isExact at hexact
  induction hcovers with
  | nil => rfl
  | cons hbyte _ ih =>
    rw [all_cons, Bool.and_eq_true] at hexact
    rw [hbyte.eq_of_isExact hexact.1, ih hexact.2]

end

variable (hp : p.Covers q)

include hp

theorem append (hpatch : patch.Covers known) : Covers (p ++ patch) (q ++ known) :=
  rel_append hp hpatch

theorem take (n : Nat) : Covers (p.take n) (q.take n) := forall₂_take n hp

theorem drop (n : Nat) : Covers (p.drop n) (q.drop n) := forall₂_drop n hp

theorem resize (length : Nat) : (p.resize length).Covers (q.resize length) := by
  unfold BytePattern.resize
  rw [hp.length_eq]
  exact (hp.take length).append (covers_of_isExact (isExact_zeros _))

theorem slice (offset length : Nat) :
    (p.slice offset length).Covers (q.slice offset length) := (hp.drop offset).resize length

theorem splice (offset : Nat) (hpatch : patch.Covers known) :
    (p.splice offset patch).Covers (q.splice offset known) := by
  unfold BytePattern.splice
  rw [hp.length_eq, hpatch.length_eq]
  exact ((hp.take offset).append (hpatch.take _)).append (hp.drop _)

theorem orZero : p.orZero.Covers q.orZero := by
  apply forall₂_map_left_iff.mpr
  apply forall₂_map_right_iff.mpr
  exact Forall₂.imp (fun _ _ hbyte => hbyte.orZero) hp

end Covers

end BytePattern

/-- A domain whose elements stand for exact integers, and whose bytes do too. -/
class Domain.Abstraction (ι φ : Type) [Domain ι φ] where
  /-- The element stands for the integer, as a value of the type. -/
  Represents : Target → IntType → ι → Int → Prop
  toBytes_covers {t : Target} {type : IntType} {a : ι} {n : Int} (hrepresents : Represents t type a n) :
    (toBytes φ t type a).Covers (.ofNat (t.encode type n) (t.intWidth type.rank))
  /-- Any bytes can be read. -/
  ofBytes_ok (t : Target) (type : IntType) (bytes : BytePattern) :
    ∃ results : List ι, ofBytes φ t type bytes = .ok results
  /-- Among the elements read from bytes one stands for what exact bytes spell. -/
  exists_represents {t : Target} {type : IntType} {bytes known : BytePattern} {results : List ι}
    (hcovers : bytes.Covers known) (hresults : ofBytes φ t type bytes = .ok results) :
    ∃ a ∈ results, Represents t type a (t.decode type (known.resize (t.intWidth type.rank)).known)

/-- Bytes of the right number that are all known are read as the number that they spell. -/
theorem BytePattern.Covers.toNat?_resize {bytes known : BytePattern} (hcovers : bytes.Covers known)
    {length pattern : Nat} (hpattern : (bytes.resize length).toNat? = some pattern) :
    pattern = (known.resize length).known := by
  unfold toNat? at hpattern
  split at hpattern
  next hexact =>
    rw [Bool.and_eq_true] at hexact
    rw [← Option.some.inj hpattern, (hcovers.resize length).eq_of_isExact hexact.1]
  next => cases hpattern

namespace Sign

/-- The sign is that of the integer, or is not known. -/
def Represents (a : Sign) (n : Int) : Prop := a = .top ∨ a = .ofInt n

instance (a : Sign) (n : Int) : Decidable (a.Represents n) := inferInstanceAs (Decidable (_ ∨ _))

theorem represents_zero {n : Int} (hzero : Represents .zero n) : n = 0 := by
  rcases hzero with htop | hsign
  · cases htop
  · unfold ofInt at hsign
    split at hsign
    · assumption
    · split at hsign <;> cases hsign

instance : Abstraction Sign Sign where
  Represents _ _ := Represents
  toBytes_covers {t type a n} hrepresents := by
    change (a.toBytes (t.intWidth type.rank)).Covers _
    unfold toBytes
    split
    next hzero =>
      subst hzero
      rw [represents_zero hrepresents]
      exact BytePattern.covers_of_isExact (isExact_ofNat 0 _)
    next =>
      exact unknown_covers (isExact_ofNat _ _) (length_ofNat _ _)
  ofBytes_ok _ _ _ := ⟨_, rfl⟩
  exists_represents {t type bytes known results} hcovers hresults := by
    cases hresults
    unfold ofBytes
    split
    next pattern hpattern =>
      rw [hcovers.toNat?_resize hpattern]
      exact ⟨_, mem_singleton_self _, .inr rfl⟩
    next =>
      split
      · exact ⟨.top, mem_singleton_self _, .inl rfl⟩
      next hsigned =>
        -- An unsigned type has no negative values, so zero and plus are all signs there are.
        have hnonneg := (t.inRange_decode type (known.resize (t.intWidth type.rank)).known).1
        rw [Target.minInt, if_neg hsigned] at hnonneg
        by_cases hzero : t.decode type (known.resize (t.intWidth type.rank)).known = 0
        · exact ⟨.zero, by simp, .inr (by simp [ofInt, hzero])⟩
        · have hpos := Int.lt_iff_le_and_ne.mpr ⟨hnonneg, Ne.symm hzero⟩
          exact ⟨.plus, by simp, .inr (by rw [ofInt, if_neg hzero, if_pos hpos])⟩

end Sign

namespace Bounded

/-- The element is the integer, a value of the type, or is not known. -/
def Represents (t : Target) (type : IntType) (a : Bounded) (n : Int) : Prop :=
  a = .top ∨ a = .known n ∧ t.InRange type n

instance (t : Target) (type : IntType) (a : Bounded) (n : Int) : Decidable (Represents t type a n) :=
  inferInstanceAs (Decidable (_ ∨ _))

theorem represents_ofInt {t : Target} {type : IntType} {n : Int} (hn : t.InRange type n) :
    Represents t type (.ofInt n) n := by
  unfold ofInt
  split
  · exact .inr ⟨rfl, hn⟩
  · exact .inl rfl

instance : Abstraction Bounded Sign where
  Represents := Represents
  toBytes_covers {t type a n} hrepresents := by
    change (toBytes t type a).Covers _
    rcases hrepresents with rfl | ⟨rfl, hn⟩
    · exact unknown_covers (isExact_ofNat _ _) (length_ofNat _ _)
    · simp only [toBytes, t.reduce_of_inRange type hn]
      exact BytePattern.covers_of_isExact (isExact_ofNat _ _)
  ofBytes_ok _ _ _ := ⟨_, rfl⟩
  exists_represents {t type bytes known results} hcovers hresults := by
    cases hresults
    unfold ofBytes
    split
    next pattern hpattern =>
      rw [hcovers.toNat?_resize hpattern]
      exact ⟨_, mem_singleton_self _, represents_ofInt (t.inRange_decode type _)⟩
    next => exact ⟨.top, mem_singleton_self _, .inl rfl⟩

end Bounded

end CoreC
