import CoreC.Domain.Exact
import CoreC.Proofs.Memory.BytePattern

/-! # Bit patterns of integers

The pattern of a value is its residue modulo the number of values of its type, and a pattern
stands for the value that has this residue. Both directions are used by memory: a value is
spelled out as bytes, and any bytes of the right number are read back as a value.

A type has as many values as patterns, and the two directions are inverse to each other. Only a
signed type of a ones'-complement target has one value less: its pattern of ones is a second zero.
-/

namespace CoreC.Target

open BytePattern Int Domain

variable {t : Target} {type : IntType}

/-- The value lies in the range of the type. -/
def InRange (t : Target) (type : IntType) (n : Int) : Prop :=
  t.minInt type ≤ n ∧ n ≤ t.maxInt type

instance (t : Target) (type : IntType) (n : Int) : Decidable (t.InRange type n) :=
  inferInstanceAs (Decidable (_ ∧ _))

theorem intWidth_pos (t : Target) (rank : IntRank) : 0 < t.intWidth rank := by
  cases t <;> cases rank <;> decide

theorem intWidth_le (t : Target) (rank : IntRank) : t.intWidth rank ≤ 8 := by
  cases t <;> cases rank <;> decide

/-- Half of the patterns of an integer type; those from here on are negative. -/
theorem two_pow_intBits (t : Target) (rank : IntRank) :
    2 ^ t.intBits rank = 2 * 2 ^ (t.intBits rank - 1) := by
  have hpos := t.intWidth_pos rank
  rw [← Nat.pow_succ', Nat.succ_eq_add_one, Nat.sub_add_cancel]
  unfold intBits
  omega

theorem two_pow_intBits_eq (t : Target) (rank : IntRank) :
    2 ^ t.intBits rank = 256 ^ t.intWidth rank := by
  rw [intBits, Nat.pow_mul]

theorem two_pow_intBits_le (t : Target) (rank : IntRank) : 2 ^ t.intBits rank ≤ 2 ^ 64 := by
  apply Nat.pow_le_pow_right (by omega)
  have hwidth := t.intWidth_le rank
  unfold intBits
  omega

theorem inRange_unsigned (hunsigned : type.signed = false) (n : Int) :
    t.InRange type n ↔ 0 ≤ n ∧ n < ((2 ^ t.intBits type.rank : Nat) : Int) := by
  simp only [InRange, minInt, maxInt, hunsigned, Bool.false_eq_true, ↓reduceIte]
  push_cast
  omega

/-! ## Residues modulo the number of values -/

/-- Zero has two patterns in the type. -/
def TwoZeros (t : Target) (type : IntType) : Prop := type.signed = true ∧ t.complement = .ones

instance (t : Target) (type : IntType) : Decidable (t.TwoZeros type) :=
  inferInstanceAs (Decidable (_ ∧ _))

/-- The bounds of a type and the number of its values. -/
theorem bounds_cases (t : Target) (type : IntType) :
    (type.signed = false ∧ t.minInt type = 0 ∧ t.span type = (2 ^ t.intBits type.rank : Nat)) ∨
    (type.signed = true ∧ t.complement = .twos ∧ t.span type = (2 ^ t.intBits type.rank : Nat) ∧
      t.minInt type = -((2 ^ (t.intBits type.rank - 1) : Nat) : Int)) ∨
    (t.TwoZeros type ∧ t.span type = (2 ^ t.intBits type.rank : Nat) - 1 ∧
      t.minInt type = 1 - ((2 ^ (t.intBits type.rank - 1) : Nat) : Int)) := by
  have hhalf := t.two_pow_intBits type.rank
  have hcast : ((2 ^ t.intBits type.rank : Nat) : Int) = 2 ^ t.intBits type.rank := by push_cast; rfl
  have hcast' : ((2 ^ (t.intBits type.rank - 1) : Nat) : Int) = 2 ^ (t.intBits type.rank - 1) := by
    push_cast; rfl
  unfold TwoZeros span minInt maxInt
  cases type.signed <;> cases t.complement <;>
    simp only [Bool.false_eq_true, reduceCtorEq, ↓reduceIte, true_and, false_and, and_false, or_false,
      false_or] <;> omega

theorem span_of_not_twoZeros (hzeros : ¬t.TwoZeros type) : t.span type = (2 ^ t.intBits type.rank : Nat) := by
  rcases t.bounds_cases type with ⟨-, -, hspan⟩ | ⟨-, -, hspan, -⟩ | ⟨htwo, -⟩
  · exact hspan
  · exact hspan
  · exact absurd htwo hzeros

theorem span_of_twoZeros (hzeros : t.TwoZeros type) : t.span type = (2 ^ t.intBits type.rank : Nat) - 1 := by
  rcases t.bounds_cases type with ⟨hsigned, -⟩ | ⟨-, htwos, -⟩ | ⟨-, hspan, -⟩
  · exact absurd hzeros.1 (by simp [hsigned])
  · exact absurd hzeros.2 (by simp [htwos])
  · exact hspan

theorem maxInt_eq (t : Target) (type : IntType) :
    t.maxInt type = t.span type + t.minInt type - 1 := by
  unfold span
  omega

theorem inRange_zero (t : Target) (type : IntType) : t.InRange type 0 := by
  have hhalf : 0 < 2 ^ (t.intBits type.rank - 1) := Nat.two_pow_pos _
  have hmax := t.maxInt_eq type
  have hbits := t.two_pow_intBits type.rank
  unfold InRange
  rcases t.bounds_cases type with ⟨-, hmin, hspan⟩ | ⟨-, -, hspan, hmin⟩ | ⟨-, hspan, hmin⟩ <;> omega

variable {n : Int}

theorem natAbs_lt_of_inRange (hn : t.InRange type n) : n.natAbs < 2 ^ t.intBits type.rank := by
  have hhalf := t.two_pow_intBits type.rank
  have hmax := t.maxInt_eq type
  obtain ⟨hlow, hhigh⟩ := hn
  rcases t.bounds_cases type with ⟨-, hmin, hspan⟩ | ⟨-, -, hspan, hmin⟩ | ⟨-, hspan, hmin⟩ <;> omega

theorem span_pos (t : Target) (type : IntType) : 0 < t.span type := by
  obtain ⟨hmin, hmax⟩ := t.inRange_zero type
  unfold span
  omega

theorem inRange_reduce (t : Target) (type : IntType) (n : Int) : t.InRange type (t.reduce type n) := by
  have hspan := t.span_pos type
  have hlow := Int.emod_nonneg (n - t.minInt type) (Int.ne_of_gt hspan)
  have hhigh := Int.emod_lt_of_pos (n - t.minInt type) hspan
  unfold InRange reduce
  unfold span at hlow hhigh ⊢
  omega

/-- Reduction changes a number by a multiple of the number of values. -/
theorem reduce_emod (t : Target) (type : IntType) (n : Int) :
    t.reduce type n % t.span type = n % t.span type := by
  rw [reduce, Int.emod_add_emod, Int.sub_add_cancel]

/-- No two values of a type have the same residue. -/
theorem eq_of_emod_eq {m n : Int} (hm : t.InRange type m) (hn : t.InRange type n)
    (hsame : m % t.span type = n % t.span type) : m = n := by
  have hshifted : (m - t.minInt type) % t.span type = (n - t.minInt type) % t.span type := by
    rw [sub_emod, hsame, ← sub_emod]
  obtain ⟨hm, hm'⟩ := hm
  obtain ⟨hn, hn'⟩ := hn
  unfold span at hshifted
  rw [emod_eq_of_lt (by omega) (by omega), emod_eq_of_lt (by omega) (by omega)] at hshifted
  omega

/-- Reduction leaves a value of the type alone. -/
theorem reduce_of_inRange (t : Target) (type : IntType) (hn : t.InRange type n) :
    t.reduce type n = n :=
  eq_of_emod_eq (t.inRange_reduce type n) hn (t.reduce_emod type n)

/-! ## Values and patterns -/

/-- The pattern of a value is its residue. -/
theorem encode_eq_emod (hn : t.InRange type n) : (t.encode type n : Int) = n % t.span type := by
  have hwork := t.two_pow_intBits_le type.rank
  have hhalf := t.two_pow_intBits type.rank
  have hzero := t.inRange_zero type
  have hcast : ((2 ^ t.intBits type.rank : Nat) : Int) = 2 ^ t.intBits type.rank := by push_cast; rfl
  unfold InRange at hn hzero
  unfold encode
  split
  next hnonneg =>
    rw [toNat_of_nonneg hnonneg, emod_eq_of_lt hnonneg]
    unfold span
    omega
  next hneg =>
    -- Negative values exist in signed types only, and both complements add the number of values.
    have hwrapped : n % t.span type = n + t.span type := by
      rw [← add_emod_right, emod_eq_of_lt]
      all_goals unfold span; omega
    rw [hwrapped]
    simp only [Number.unsignedWord, workingBits]
    rcases t.bounds_cases type with ⟨-, hmin, -⟩ | ⟨-, htwos, hspan, hmin⟩ | ⟨⟨-, hones⟩, hspan, hmin⟩
    · omega
    · simp only [htwos]
      omega
    · simp only [hones]
      omega

/-- The value of a pattern has the residue of the pattern. -/
theorem decode_emod (t : Target) (type : IntType) (pattern : Nat) :
    t.decode type pattern % t.span type = (pattern % 2 ^ t.intBits type.rank : Nat) % t.span type := by
  unfold decode
  dsimp only
  split
  · rfl
  next hhigh =>
    simp only [Bool.or_eq_true, not_or, Bool.not_eq_true', Bool.not_eq_false] at hhigh
    rcases t.bounds_cases type with ⟨hunsigned, -⟩ | ⟨-, htwos, hspan, -⟩ | ⟨⟨-, hones⟩, hspan, -⟩
    · simp [hunsigned] at hhigh
    · simp only [htwos]
      rw [← hspan, sub_emod_right]
    · simp only [hones]
      rw [← hspan, sub_emod_right]

/-- Every pattern stands for a value of the type. -/
theorem inRange_decode (t : Target) (type : IntType) (pattern : Nat) :
    t.InRange type (t.decode type pattern) := by
  have hraw : pattern % 2 ^ t.intBits type.rank < 2 ^ t.intBits type.rank :=
    Nat.mod_lt _ (Nat.two_pow_pos _)
  have hhalf := t.two_pow_intBits type.rank
  have hmax := t.maxInt_eq type
  unfold InRange decode
  dsimp only
  generalize pattern % 2 ^ t.intBits type.rank = raw at hraw ⊢
  rcases t.bounds_cases type with ⟨hsigned, hmin, hspan⟩ | ⟨hsigned, htwos, hspan, hmin⟩ |
    ⟨⟨hsigned, hones⟩, hspan, hmin⟩
  · simp only [hsigned, Bool.not_false, Bool.true_or, ↓reduceIte]
    omega
  · simp only [hsigned, htwos, Bool.not_true, Bool.false_or, decide_eq_true_eq]
    split <;> omega
  · simp only [hsigned, hones, Bool.not_true, Bool.false_or, decide_eq_true_eq]
    split <;> omega

theorem encode_lt (hn : t.InRange type n) : t.encode type n < 2 ^ t.intBits type.rank := by
  have hencode := encode_eq_emod hn
  have hlt := Int.emod_lt_of_pos n (t.span_pos type)
  rcases t.bounds_cases type with ⟨-, -, hspan⟩ | ⟨-, -, hspan, -⟩ | ⟨-, hspan, -⟩ <;> omega

theorem decode_encode (hn : t.InRange type n) : t.decode type (t.encode type n) = n := by
  apply eq_of_emod_eq (t.inRange_decode type _) hn
  rw [decode_emod, Nat.mod_eq_of_lt (encode_lt hn), encode_eq_emod hn, emod_emod]

variable {pattern : Nat}

/-- A pattern below the number of values is the one that its value is spelled with. -/
theorem encode_decode (hpattern : ((pattern % 2 ^ t.intBits type.rank : Nat) : Int) < t.span type) :
    t.encode type (t.decode type pattern) = pattern % 2 ^ t.intBits type.rank := by
  have hencode := encode_eq_emod (t.inRange_decode type pattern)
  rw [decode_emod, emod_eq_of_lt (natCast_nonneg _) hpattern] at hencode
  exact ofNat_inj.mp hencode

/-- On a two's-complement target every pattern of the type's width is spelled by its value. -/
theorem encode_decode_of_lt (htwos : t.complement = .twos)
    (hpattern : pattern < 2 ^ t.intBits type.rank) : t.encode type (t.decode type pattern) = pattern := by
  have hspan : t.span type = (2 ^ t.intBits type.rank : Nat) :=
    span_of_not_twoZeros fun hzeros => by simp [TwoZeros, htwos] at hzeros
  have hcut := Nat.mod_eq_of_lt hpattern
  rw [encode_decode (by omega), hcut]

/-- The second zero is the pattern of ones. -/
theorem decode_ones (hzeros : t.TwoZeros type)
    (hpattern : pattern % 2 ^ t.intBits type.rank = 2 ^ t.intBits type.rank - 1) : t.decode type pattern = 0 := by
  apply eq_of_emod_eq (t.inRange_decode type pattern) (t.inRange_zero type)
  have hpos := Nat.two_pow_pos (t.intBits type.rank)
  have hones : ((2 ^ t.intBits type.rank - 1 : Nat) : Int) = t.span type := by
    rw [span_of_twoZeros hzeros]
    omega
  rw [decode_emod, hpattern, hones, emod_self, zero_emod]

/-- Exact bytes, brought to the width of an integer type, stand for one integer. -/
theorem ofBytes_of_isExact (t : Target) (type : IntType) {bytes : BytePattern}
    (hexact : bytes.isExact = true) : Exact.ofBytes t type bytes =
      .ok [t.decode type (bytes.resize (t.intWidth type.rank)).known] := by
  have hwidth := t.intWidth_le type.rank
  rw [Exact.ofBytes, enumerate_of_isExact (isExact_resize hexact _)
    (by rw [length_resize, maxLength]; omega)]
  rfl

theorem ofBytes_toBytes (hn : t.InRange type n) :
    ofBytes Double t type (toBytes Double t type n) = .ok [n] := by
  change Exact.ofBytes t type (.ofNat (t.encode type n) (t.intWidth type.rank)) = _
  rw [ofBytes_of_isExact t type (isExact_ofNat _ _),
    resize_of_length (length_ofNat _ _), known_ofNat,
    ← two_pow_intBits_eq, Nat.mod_eq_of_lt (encode_lt hn), decode_encode hn]

/-- **Values and patterns.** On every target a value of an integer type is given back by its
pattern, which has the width of the type, and by its bytes. Every number, cut to the width of the
type, is the pattern of a value, and of no other, except that the pattern of ones is a second zero
where the type has two. -/
theorem values_and_patterns (t : Target) (type : IntType) :
    (∀ n, t.InRange type n → t.decode type (t.encode type n) = n ∧
      t.encode type n < 2 ^ t.intBits type.rank ∧
      ofBytes Double t type (toBytes Double t type n) = .ok [n]) ∧
    ∀ pattern, t.InRange type (t.decode type pattern) ∧
      (∀ other, other % 2 ^ t.intBits type.rank = pattern % 2 ^ t.intBits type.rank →
        t.decode type other = t.decode type pattern) ∧
      if t.TwoZeros type ∧ pattern % 2 ^ t.intBits type.rank = 2 ^ t.intBits type.rank - 1 then
        t.decode type pattern = 0
      else t.encode type (t.decode type pattern) = pattern % 2 ^ t.intBits type.rank := by
  constructor
  · intro n hn
    exact ⟨decode_encode hn, encode_lt hn, ofBytes_toBytes hn⟩
  intro pattern
  refine ⟨t.inRange_decode type pattern, fun other hother => ?_, ?_⟩
  · apply eq_of_emod_eq (t.inRange_decode type other) (t.inRange_decode type pattern)
    rw [decode_emod, decode_emod, hother]
  split
  next hones => exact decode_ones hones.1 hones.2
  next hother =>
    apply encode_decode
    have hlt : pattern % 2 ^ t.intBits type.rank < 2 ^ t.intBits type.rank :=
      Nat.mod_lt _ (Nat.two_pow_pos _)
    by_cases hzeros : t.TwoZeros type
    · have hne : pattern % 2 ^ t.intBits type.rank ≠ 2 ^ t.intBits type.rank - 1 :=
        fun hones => hother ⟨hzeros, hones⟩
      rw [span_of_twoZeros hzeros]
      omega
    · rw [span_of_not_twoZeros hzeros]
      omega

/-- The least `char` of the ones'-complement target, and the second zero. -/
theorem leastChar_and_ones :
    std.InRange .char (-127) ∧ std.decode .char (std.encode .char (-127)) = -127 ∧
      std.encode .char (-127) < 256 ∧ std.decode .char 0xff = 0 ∧ std.decode .char 0x1ff = 0 := by
  obtain ⟨hvalues, hpatterns⟩ := values_and_patterns std .char
  have hleast : std.InRange .char (-127) := by decide
  have hones := (hpatterns 0xff).2.2
  rw [if_pos (by decide)] at hones
  exact ⟨hleast, (hvalues _ hleast).1, (hvalues _ hleast).2.1, hones,
    ((hpatterns 0xff).2.1 0x1ff (by decide)).trans hones⟩

end CoreC.Target
