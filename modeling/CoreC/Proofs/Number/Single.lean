import CoreC.Proofs.Number.Rounding

/-! # Singles inside doubles

A single-precision number is kept as the double of the same value. Its word comes back
unchanged when the double is rounded to single precision again, because every single is a
number of the wider format and rounding an exact value changes nothing. Only a signaling NaN
comes back as another word, with its quiet bit set.
-/

namespace CoreC

open Number (Format Scaled)

namespace Number

/-- Further bits of the significand make up for a smaller exponent. -/
theorem Scaled.value_shift (x : Scaled) (bits : Nat) :
    Scaled.value ⟨x.significand * 2 ^ bits, x.exponent - bits⟩ = x.value := by
  have hpower : (2 : ℚ) ^ x.exponent = 2 ^ bits * 2 ^ (x.exponent - bits) := by
    rw [← zpow_natCast, ← zpow_add₀ (by norm_num), add_sub_cancel]
  rw [value, value, hpower, Nat.cast_mul, Nat.cast_pow, Nat.cast_ofNat, mul_assoc]

/-- Every single is a double. -/
theorem Format.exists_double {x : Scaled} (hx : Format.single.Holds x) :
    ∃ y, Format.double.Holds y ∧ y.value = x.value := by
  have hlt : x.significand < 2 * 2 ^ 23 := hx.lt
  have hleast : -149 ≤ x.exponent := hx.least_le
  have hgreatest : x.exponent ≤ 104 := hx.le_greatest
  rcases Nat.eq_zero_or_pos x.significand with hzero | hpos
  · refine ⟨⟨0, Format.double.least⟩, ⟨Nat.mul_pos Nat.two_pos (Format.fullWidth_pos _), le_rfl, ?_, .inr rfl⟩, ?_⟩
    · decide
    · simp [Scaled.value, hzero]
  · have hnonzero := Nat.pos_iff_ne_zero.mp hpos
    have hlog : x.significand.log2 < 24 := (Nat.log2_lt hnonzero).mpr hlt
    -- shifted so far that the significand has the full width of a double
    obtain ⟨bits, hbits⟩ : ∃ bits, x.significand.log2 + bits = 52 := ⟨52 - x.significand.log2, by omega⟩
    have hlow : 2 ^ x.significand.log2 * 2 ^ bits ≤ x.significand * 2 ^ bits :=
      Nat.mul_le_mul_right _ (Nat.log2_self_le hnonzero)
    have hhigh : x.significand * 2 ^ bits < 2 ^ (x.significand.log2 + 1) * 2 ^ bits :=
      Nat.mul_lt_mul_of_pos_right Nat.lt_log2_self (Nat.two_pow_pos bits)
    rw [← Nat.pow_add, hbits] at hlow
    rw [← Nat.pow_add, Nat.add_right_comm, hbits] at hhigh
    refine ⟨_, ⟨?_, ?_, ?_, .inl ?_⟩, x.value_shift bits⟩
    · exact hhigh
    · change -1074 ≤ x.exponent - bits
      omega
    · change x.exponent - bits ≤ 971
      omega
    · exact hlow

end Number

namespace Double

variable {magnitude : Nat}

variable (negative : Bool)

theorem toNat_ofMagnitude (hbound : magnitude < 2 ^ 63) :
    (ofMagnitude negative magnitude).bits.toNat = if negative then 2 ^ 63 + magnitude else magnitude := by
  rw [ofMagnitude, UInt64.toNat_ofNat']
  cases negative <;> simp only [Bool.false_eq_true, ↓reduceIte] <;> omega

@[simp] theorem magnitude_ofMagnitude
    (hbound : magnitude < 2 ^ 63) : (ofMagnitude negative magnitude).magnitude = magnitude := by
  rw [Double.magnitude, toNat_ofMagnitude negative hbound]
  split <;> omega

@[simp] theorem negative_ofMagnitude
    (hbound : magnitude < 2 ^ 63) : (ofMagnitude negative magnitude).negative = negative := by
  rw [Double.negative, toNat_ofMagnitude negative hbound]
  cases negative
  · simp; omega
  · simp

/-- The word of a NaN whose quiet bit is not set. -/
def Signaling (word : Nat) : Prop :=
  Format.single.infinity < word % 2 ^ 31 ∧ word % 2 ^ 31 < Format.single.infinity + 2 ^ 22

instance (word : Nat) : Decidable (Signaling word) := inferInstanceAs (Decidable (_ ∧ _))

theorem single_infinity : Format.single.infinity = 2 ^ 31 - 2 ^ 23 := rfl

theorem double_infinity : Format.double.infinity = 2 ^ 63 - 2 ^ 52 := rfl

/-- A finite single survives as a double. -/
theorem toSingleWord_ofRatio (hfinite : magnitude < Format.single.infinity) :
    let value := Format.single.decode magnitude
    (ofRatio negative value.num value.den).toSingleWord =
      if negative then 2 ^ 31 + magnitude else magnitude := by
  intro value
  have hvalue : Format.single.Holds value := Format.holds_decode hfinite (by decide)
  obtain ⟨wide, hwide, hsame⟩ := Format.exists_double hvalue
  have hencode := Format.encode_lt_infinity hwide
  have hbound : Format.double.encode wide < 2 ^ 63 := by
    rw [double_infinity] at hencode
    omega
  rw [ofRatio, Format.encodeRatio_eq (by decide) hwide value.den_pos (value.num_div_den.trans hsame.symm)]
  have hnumber : (ofMagnitude negative (Format.double.encode wide)).isNaN = false := by
    simp only [isNaN, magnitude_ofMagnitude _ hbound, decide_eq_false_iff_not]
    omega
  have hscaled : (ofMagnitude negative (Format.double.encode wide)).scaled = wide := by
    rw [scaled, magnitude_ofMagnitude _ hbound, Format.decode_encode hwide]
  have hisFinite : (ofMagnitude negative (Format.double.encode wide)).isFinite = true := by
    simp only [isFinite, magnitude_ofMagnitude _ hbound, decide_eq_true_eq]
    exact hencode
  rw [toSingleWord, hnumber, hisFinite, hscaled, negative_ofMagnitude _ hbound,
    Format.encodeRatio_eq (by decide) hvalue wide.den_pos (wide.num_div_den.trans hsame), Format.encode_decode]
  rfl

/-- A NaN keeps its payload as a double, with the quiet bit set. -/
theorem toSingleWord_quiet {payload quieted : Nat} (hpayload : payload < 2 ^ 23)
    (hnan : 0 < payload) (hquieted : payload ||| 2 ^ 22 = quieted) :
    (quiet (ofMagnitude negative (Format.double.infinity + payload * extraBits))).toSingleWord =
      if negative then 2 ^ 31 + (Format.single.infinity + quieted)
      else Format.single.infinity + quieted := by
  have hshort : quieted < 2 ^ 23 := hquieted ▸ Nat.or_lt_two_pow hpayload (by decide)
  have hnonzero : 0 < quieted := Nat.lt_of_lt_of_le hnan (hquieted ▸ Nat.left_le_or)
  have hbound : Format.double.infinity + payload * extraBits < 2 ^ 63 := by
    rw [double_infinity, extraBits]
    omega
  -- the quiet bit lies inside the payload, below the sign and the exponent
  have hset high : (2 ^ 52 * high + payload * extraBits) ||| 2 ^ 51 =
      2 ^ 52 * high + quieted * extraBits := by
    have hlow {n} (hn : n < 2 ^ 23) : n * 2 ^ 29 < 2 ^ 52 :=
      Nat.mul_lt_mul_of_pos_right hn (Nat.two_pow_pos 29)
    have hbit : (2 : Nat) ^ 51 = 2 ^ 22 <<< 29 := by rw [Nat.shiftLeft_eq, ← Nat.pow_add]
    rw [extraBits, Nat.two_pow_add_eq_or_of_lt (hlow hpayload),
      Nat.two_pow_add_eq_or_of_lt (hlow hshort), Nat.or_assoc,
      ← Nat.shiftLeft_eq payload, ← Nat.shiftLeft_eq quieted, hbit, ← Nat.shiftLeft_or_distrib,
      hquieted]
  generalize hresult : quiet (ofMagnitude negative (Format.double.infinity + payload * extraBits)) =
    result
  have hbits : result.bits.toNat =
      if negative then 2 ^ 63 + (Format.double.infinity + quieted * extraBits)
      else Format.double.infinity + quieted * extraBits := by
    rw [← hresult, quiet, UInt64.toNat_or, toNat_ofMagnitude negative hbound]
    cases negative with
    | false => exact hset 2047
    | true =>
      have hwhole := hset 4095
      have hsplit low : 2 ^ 63 + (Format.double.infinity + low) = 2 ^ 52 * 4095 + low := by
        rw [double_infinity]
        omega
      simp only [↓reduceIte, hsplit]
      exact hwhole
  rw [extraBits, double_infinity] at hbits
  have hmagnitude : result.magnitude = Format.double.infinity + quieted * extraBits := by
    rw [Double.magnitude, hbits, double_infinity, extraBits]
    split <;> omega
  have hnegative : result.negative = negative := by
    rw [Double.negative, hbits]
    cases negative with
    | false =>
      simp only [Bool.false_eq_true, ↓reduceIte, decide_eq_false_iff_not]
      omega
    | true =>
      simp only [↓reduceIte, decide_eq_true_eq]
      omega
  have hisNaN : result.isNaN = true := by
    rw [isNaN, hmagnitude, extraBits, decide_eq_true_eq]
    omega
  have hword : Format.single.infinity ||| 0x400000 ||| quieted = Format.single.infinity + quieted := by
    have hinfinity : Format.single.infinity = 2 ^ 23 * 255 := rfl
    have hquiet : 2 ^ 22 ||| quieted = quieted := by
      rw [← hquieted, Nat.or_comm, Nat.or_assoc, Nat.or_self]
    have hbit : 0x400000 = 2 ^ 22 := by decide
    rw [Nat.or_assoc, hbit, hquiet, hinfinity, Nat.two_pow_add_eq_or_of_lt hshort]
  rw [toSingleWord, hisNaN, hnegative, hmagnitude, Nat.add_sub_cancel_left, extraBits,
    Nat.mul_div_cancel _ (by omega), if_pos rfl, hword]

/-- The word of a single comes back from the double that holds it, except that a signaling
NaN is made quiet. -/
theorem toSingleWord_ofSingleWord {word : Nat} (hword : word < 2 ^ 32) :
    (ofSingleWord word).toSingleWord = if Signaling word then word + 2 ^ 22 else word := by
  have hinfinity := single_infinity
  have hsign magnitude : (if decide (2 ^ 31 ≤ word) = true then 2 ^ 31 + magnitude else magnitude) =
      word - word % 2 ^ 31 + magnitude := by
    simp only [decide_eq_true_eq]
    split <;> omega
  unfold ofSingleWord
  dsimp only
  by_cases hnan : Format.single.infinity < word % 2 ^ 31
  · obtain ⟨payload, hpayload⟩ : ∃ payload, word % 2 ^ 31 = Format.single.infinity + payload :=
      ⟨word % 2 ^ 31 - Format.single.infinity, by omega⟩
    have hquieted : payload ||| 2 ^ 22 = if payload < 2 ^ 22 then payload + 2 ^ 22 else payload := by
      split
      next hshort =>
        have hset := Nat.two_pow_add_eq_or_of_lt hshort 1
        rw [Nat.mul_one] at hset
        rw [Nat.or_comm, ← hset, Nat.add_comm]
      next hlong =>
        obtain ⟨rest, rfl⟩ : ∃ rest, payload = 2 ^ 22 + rest := ⟨payload - 2 ^ 22, by omega⟩
        have hset := Nat.two_pow_add_eq_or_of_lt (show rest < 2 ^ 22 by omega) 1
        rw [Nat.mul_one] at hset
        rw [hset, Nat.or_comm, ← Nat.or_assoc, Nat.or_self]
    have hsignaling : Signaling word ↔ payload < 2 ^ 22 := by
      unfold Signaling
      omega
    simp only [hsignaling]
    rw [if_pos hnan, hpayload, Nat.add_sub_cancel_left,
      toSingleWord_quiet _ (by omega) (by omega) hquieted, hsign]
    split <;> omega
  · have hcalm : ¬Signaling word := fun hsignaling => hnan hsignaling.1
    rw [if_neg hnan, if_neg hcalm]
    by_cases hinfinite : word % 2 ^ 31 = Format.single.infinity
    · rw [if_pos hinfinite]
      have hbound : Format.double.infinity < 2 ^ 63 := by decide
      rw [toSingleWord, negative_ofMagnitude _ hbound]
      simp only [isNaN, isFinite, magnitude_ofMagnitude _ hbound, Nat.lt_irrefl, decide_false,
        Bool.false_eq_true, ↓reduceIte]
      rw [hsign]
      omega
    · rw [if_neg hinfinite, toSingleWord_ofRatio _ (by omega), hsign]
      omega

end Double

end CoreC
