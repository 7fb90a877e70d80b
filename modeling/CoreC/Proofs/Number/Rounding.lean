import CoreC.Number.Double
import Mathlib.Algebra.Order.Field.Power
import Mathlib.Data.Rat.Cast.Order
import Mathlib.Tactic.Linarith
import Mathlib.Tactic.NormNum
import Mathlib.Tactic.Positivity
import Mathlib.Tactic.Ring

/-! # Rounding to a format

Rounding a ratio gives the number of the format around which the ratio lies. So the exact value of
a number is rounded to that number, however it is written.
-/

namespace CoreC.Number

/-! ## Ratios -/

/-- A power as a ratio of powers that are whole numbers. -/
theorem zpow_eq_div (base : Nat) (hbase : 0 < base) (k : Int) :
    (base : ℚ) ^ k = ((base ^ k.toNat : Nat) : ℚ) / ((base ^ (-k).toNat : Nat) : ℚ) := by
  have hne : (base : ℚ) ≠ 0 := Nat.cast_ne_zero.mpr (Nat.ne_of_gt hbase)
  rw [Nat.cast_pow, Nat.cast_pow, ← zpow_natCast, ← zpow_natCast, ← zpow_sub₀ hne]
  congr 1
  omega

theorem ratio_div_zpow (num den base : Nat) (hbase : 0 < base) (k : Int) :
    ((num * base ^ (-k).toNat : Nat) : ℚ) / ((den * base ^ k.toNat : Nat) : ℚ) =
      (num : ℚ) / den / (base : ℚ) ^ k := by
  rw [zpow_eq_div base hbase, Nat.cast_mul, Nat.cast_mul, div_div_div_eq]

theorem ratio_lt_zpow_iff {num den base : Nat} (hden : 0 < den) (hbase : 0 < base) (k : Int) :
    num * base ^ (-k).toNat < den * base ^ k.toNat ↔ (num : ℚ) / den < (base : ℚ) ^ k := by
  have hdown : (0 : ℚ) < ((base ^ (-k).toNat : Nat) : ℚ) := Nat.cast_pos.mpr (Nat.pow_pos hbase)
  rw [zpow_eq_div base hbase, div_lt_div_iff₀ (Nat.cast_pos.mpr hden) hdown, ← Nat.cast_mul, ← Nat.cast_mul,
    Nat.cast_lt, Nat.mul_comm den]

/-- The power of two below a number. -/
theorem log2_bounds {n : Nat} (hn : 0 < n) :
    (2 : ℚ) ^ (n.log2 : Int) ≤ n ∧ (n : ℚ) < 2 ^ ((n.log2 : Int) + 1) := by
  have hlow : 2 ^ n.log2 ≤ n := Nat.log2_self_le (Nat.ne_of_gt hn)
  have hhigh : n < 2 ^ (n.log2 + 1) := Nat.lt_log2_self
  rw [← Nat.cast_succ, zpow_natCast, zpow_natCast]
  exact ⟨by exact_mod_cast hlow, by exact_mod_cast hhigh⟩

/-- The power of two below a ratio. -/
theorem log2Ratio_bounds {num den : Nat} (hnum : 0 < num) (hden : 0 < den) :
    (2 : ℚ) ^ log2Ratio num den ≤ (num : ℚ) / den ∧ (num : ℚ) / den < 2 ^ (log2Ratio num den + 1) := by
  have htwo : (2 : ℚ) ≠ 0 := by norm_num
  have hpos : (0 : ℚ) < den := Nat.cast_pos.mpr hden
  obtain ⟨hnumLow, hnumHigh⟩ := log2_bounds hnum
  obtain ⟨hdenLow, hdenHigh⟩ := log2_bounds hden
  -- the estimate from the two logarithms is at most one too large
  have hlow : (2 : ℚ) ^ ((num.log2 : Int) - den.log2 - 1) ≤ (num : ℚ) / den := by
    rw [sub_sub, zpow_sub₀ htwo]
    exact div_le_div₀ (Nat.cast_nonneg _) hnumLow hpos hdenHigh.le
  have hhigh : (num : ℚ) / den < (2 : ℚ) ^ ((num.log2 : Int) - den.log2 + 1) := by
    rw [sub_add_eq_add_sub, zpow_sub₀ htwo]
    exact div_lt_div₀ hnumHigh hdenLow (by positivity) (by positivity)
  unfold log2Ratio
  dsimp only
  split
  next hbelow =>
    rw [sub_add_cancel]
    exact ⟨hlow, (ratio_lt_zpow_iff hden Nat.two_pos _).mp hbelow⟩
  next hnot =>
    exact ⟨not_lt.mp (mt (ratio_lt_zpow_iff hden Nat.two_pos _).mpr hnot), hhigh⟩

/-- Only one exponent has its power of two just below a ratio. -/
theorem log2Ratio_eq_of_bounds {num den : Nat} (hnum : 0 < num) (hden : 0 < den) {k : Int}
    (hlow : (2 : ℚ) ^ k ≤ (num : ℚ) / den) (hhigh : (num : ℚ) / den < 2 ^ (k + 1)) : log2Ratio num den = k := by
  obtain ⟨hlow', hhigh'⟩ := log2Ratio_bounds hnum hden
  have hone : (1 : ℚ) < 2 := by norm_num
  have hle := (zpow_lt_zpow_iff_right₀ hone).mp (hlow'.trans_lt hhigh)
  have hge := (zpow_lt_zpow_iff_right₀ hone).mp (hlow.trans_lt hhigh')
  omega

/-! ## Rounding -/

/-- A ratio lies around a whole number: within one half of it, ends included for an even one. -/
def Around (k : Nat) (q : ℚ) : Prop :=
  k - 1 / 2 ≤ q ∧ q ≤ k + 1 / 2 ∧ (k % 2 ≠ 0 → k - 1 / 2 < q ∧ q < k + 1 / 2)

theorem roundDiv_eq {num den k : Nat} (hden : 0 < den) (hnear : Around k ((num : ℚ) / den)) :
    roundDiv num den = k := by
  have hpos : (0 : ℚ) < den := Nat.cast_pos.mpr hden
  obtain ⟨hlow, hhigh, hodd⟩ := hnear
  have hlow' : 2 * (k * den) ≤ 2 * num + den := by
    rw [le_div_iff₀ hpos] at hlow
    have : (2 : ℚ) * (k * den) ≤ 2 * num + den := by linarith
    exact_mod_cast this
  have hhigh' : 2 * num ≤ 2 * (k * den) + den := by
    rw [div_le_iff₀ hpos] at hhigh
    have : (2 : ℚ) * num ≤ 2 * (k * den) + den := by linarith
    exact_mod_cast this
  have hodd' : k % 2 ≠ 0 → 2 * (k * den) < 2 * num + den ∧ 2 * num < 2 * (k * den) + den := by
    intro hk
    obtain ⟨hlow, hhigh⟩ := hodd hk
    rw [lt_div_iff₀ hpos] at hlow
    rw [div_lt_iff₀ hpos] at hhigh
    have hfirst : (2 : ℚ) * (k * den) < 2 * num + den := by linarith
    have hsecond : (2 : ℚ) * num < 2 * (k * den) + den := by linarith
    exact ⟨by exact_mod_cast hfirst, by exact_mod_cast hsecond⟩
  have hsplit := Nat.div_add_mod num den
  have hrest := Nat.mod_lt num hden
  -- so `k` is the quotient or the number after it
  have hcases : k = num / den ∨ k = num / den + 1 := by
    have hle : k < num / den + 2 := by
      refine Nat.lt_of_mul_lt_mul_right (a := den) ?_
      rw [Nat.add_mul, Nat.mul_comm (num / den)]
      omega
    have hge : num / den < k + 1 := by
      refine Nat.lt_of_mul_lt_mul_right (a := den) ?_
      rw [Nat.add_mul, Nat.mul_comm (num / den)]
      omega
    omega
  unfold roundDiv
  dsimp only
  rcases hcases with hk | hk
  · rw [hk, Nat.mul_comm (num / den)] at hlow' hhigh' hodd'
    split_ifs <;> omega
  · rw [hk, Nat.add_mul, Nat.mul_comm (num / den)] at hlow' hhigh' hodd'
    split_ifs <;> omega

/-! ## Numbers of a format -/

/-- The number as a ratio. -/
def Scaled.value (x : Scaled) : ℚ := x.significand * 2 ^ x.exponent

theorem Scaled.num_div_den (x : Scaled) : (x.num : ℚ) / x.den = x.value := by
  have hpower := zpow_eq_div 2 Nat.two_pos x.exponent
  rw [Nat.cast_ofNat] at hpower
  rw [num, den, value, hpower, Nat.cast_mul, mul_div_assoc]

theorem Scaled.den_pos (x : Scaled) : 0 < x.den := Nat.two_pow_pos _

namespace Format

/-- A number of the format: with a full significand, or with the least exponent. -/
structure Holds (fmt : Format) (x : Scaled) : Prop where
  lt : x.significand < 2 * fmt.fullWidth
  least_le : fmt.least ≤ x.exponent
  le_greatest : x.exponent ≤ fmt.greatest
  full : fmt.fullWidth ≤ x.significand ∨ x.exponent = fmt.least

variable {fmt : Format} {x : Scaled} {q : ℚ}

theorem fullWidth_pos (fmt : Format) : 0 < fmt.fullWidth := Nat.two_pow_pos _

/-- Magnitude bits below infinity stand for a number of the format. -/
theorem holds_decode {magnitude : Nat} (hfinite : magnitude < fmt.infinity)
    (hrange : fmt.least ≤ fmt.greatest) : fmt.Holds (fmt.decode magnitude) := by
  have hwidth := fmt.fullWidth_pos
  have hfraction := Nat.mod_lt magnitude hwidth
  have hfield : magnitude / fmt.fullWidth < (fmt.greatest - fmt.least + 2).toNat :=
    Nat.div_lt_of_lt_mul (by rw [Nat.mul_comm]; exact hfinite)
  unfold decode
  dsimp only
  split
  next hzero => exact ⟨by dsimp only; omega, by simp, by simpa using hrange, .inr rfl⟩
  next hfull =>
    refine ⟨?_, ?_, ?_, .inl ?_⟩ <;> dsimp only <;> omega

/-- Encoding undoes decoding. -/
theorem encode_decode (fmt : Format) (magnitude : Nat) : fmt.encode (fmt.decode magnitude) = magnitude := by
  have hsplit := Nat.div_add_mod magnitude fmt.fullWidth
  unfold decode encode
  dsimp only
  split
  next hzero =>
    rw [hzero, Nat.mul_zero, Nat.zero_add] at hsplit
    simpa using hsplit
  next hfull =>
    have hexponent : (fmt.least + ((magnitude / fmt.fullWidth - 1 : Nat) : Int) - fmt.least).toNat =
        magnitude / fmt.fullWidth - 1 := by omega
    obtain ⟨field, hfield⟩ := Nat.exists_eq_succ_of_ne_zero hfull
    rw [hfield, Nat.mul_comm, Nat.succ_mul] at hsplit
    dsimp only
    rw [hexponent, hfield, Nat.succ_sub_one]
    omega

/-- Decoding undoes encoding. -/
theorem decode_encode (hx : fmt.Holds x) : fmt.decode (fmt.encode x) = x := by
  have hwidth := fmt.fullWidth_pos
  have hlt := hx.lt
  have hleast := hx.least_le
  obtain ⟨significand, exponent⟩ := x
  dsimp only at hlt hleast
  unfold encode decode
  dsimp only
  rcases Nat.lt_or_ge significand fmt.fullWidth with hshort | hfull
  · have hexponent : exponent = fmt.least := by
      rcases hx.full with hfull | hexponent
      · exact absurd hfull (Nat.not_le.mpr hshort)
      · exact hexponent
    subst hexponent
    simp [Nat.div_eq_of_lt hshort, Nat.mod_eq_of_lt hshort]
  · obtain ⟨fraction, rfl⟩ : ∃ fraction, significand = fmt.fullWidth + fraction :=
      ⟨significand - fmt.fullWidth, by omega⟩
    have hfraction : fraction < fmt.fullWidth := by omega
    have hrearranged : (exponent - fmt.least).toNat * fmt.fullWidth + (fmt.fullWidth + fraction) =
        fraction + fmt.fullWidth * ((exponent - fmt.least).toNat + 1) := by
      rw [Nat.mul_add, Nat.mul_one, Nat.mul_comm]
      omega
    rw [hrearranged, Nat.add_mul_div_left _ _ hwidth, Nat.add_mul_mod_self_left,
      Nat.div_eq_of_lt hfraction, Nat.mod_eq_of_lt hfraction, if_neg (by omega)]
    congr 1
    omega

theorem encode_lt_infinity (hx : fmt.Holds x) : fmt.encode x < fmt.infinity := by
  have hlt := hx.lt
  have hleast := hx.least_le
  have hgreatest := hx.le_greatest
  have hfield : (x.exponent - fmt.least).toNat + 2 ≤ (fmt.greatest - fmt.least + 2).toNat := by omega
  calc fmt.encode x < ((x.exponent - fmt.least).toNat + 2) * fmt.fullWidth := by
        rw [encode, Nat.add_mul]
        omega
    _ ≤ fmt.infinity := Nat.mul_le_mul_right _ hfield

/-! ## What is rounded to a number -/

/-- A power of two whose lower neighbour in the format is nearer than its upper one. -/
def Narrow (fmt : Format) (x : Scaled) : Prop := x.significand = fmt.fullWidth ∧ fmt.least < x.exponent

instance (fmt : Format) (x : Scaled) : Decidable (fmt.Narrow x) := inferInstanceAs (Decidable (_ ∧ _))

/-- How far below a number, in units of its last bit, the ratios reach that are rounded to it. -/
def reach (fmt : Format) (x : Scaled) : ℚ := if fmt.Narrow x then 1 / 4 else 1 / 2

/-- A ratio lies among those that are rounded to a number of the format. -/
def Draws (fmt : Format) (x : Scaled) (q : ℚ) : Prop :=
  x.significand - fmt.reach x ≤ q / 2 ^ x.exponent ∧ q / 2 ^ x.exponent ≤ x.significand + 1 / 2 ∧
    (x.significand % 2 ≠ 0 →
      x.significand - fmt.reach x < q / 2 ^ x.exponent ∧ q / 2 ^ x.exponent < x.significand + 1 / 2)

theorem reach_le (fmt : Format) (x : Scaled) : fmt.reach x ≤ 1 / 2 := by
  unfold reach
  split <;> norm_num

theorem draws_value (fmt : Format) (x : Scaled) : fmt.Draws x x.value := by
  have hreach : 0 < fmt.reach x := by
    unfold reach
    split <;> norm_num
  have hquotient : x.value / 2 ^ x.exponent = x.significand := mul_div_cancel_right₀ _ (by positivity)
  unfold Draws
  rw [hquotient]
  exact ⟨by linarith, by linarith, fun _ => ⟨by linarith, by linarith⟩⟩

/-- Seen from the last bit of the number, a ratio that is drawn to it lies around its significand. -/
theorem Draws.around (hdraws : fmt.Draws x q) : Around x.significand (q / 2 ^ x.exponent) := by
  have hreach := fmt.reach_le x
  obtain ⟨hlow, hhigh, hodd⟩ := hdraws
  refine ⟨by linarith, hhigh, fun hsignificand => ?_⟩
  obtain ⟨hlow, hhigh⟩ := hodd hsignificand
  exact ⟨by linarith, hhigh⟩

theorem Draws.pos (hdraws : fmt.Draws x q) (hx : 0 < x.significand) : 0 < q := by
  have hsignificand : (1 : ℚ) ≤ x.significand := by exact_mod_cast hx
  have hquotient : 0 < q / 2 ^ x.exponent := by
    have hreach := fmt.reach_le x
    have hlow := hdraws.1
    linarith
  exact (div_pos_iff_of_pos_right (by positivity)).mp hquotient

section Precision

variable (hprecision : 0 < fmt.precision)

include hprecision

theorem fullWidth_eq : (fmt.fullWidth : ℚ) = 2 ^ ((fmt.precision : Int) - 1) := by
  rw [fullWidth, Nat.cast_pow, Nat.cast_ofNat, ← zpow_natCast, Nat.cast_pred hprecision]

/-- What is drawn to a number is less than the next power of two. -/
theorem Draws.lt (hdraws : fmt.Draws x q) (hx : fmt.Holds x) : q < 2 ^ (x.exponent + fmt.precision) := by
  have hsignificand : (x.significand : ℚ) + 1 ≤ 2 * fmt.fullWidth := by exact_mod_cast hx.lt
  have hhigh := hdraws.2.1
  have hquotient : q / 2 ^ x.exponent < 2 ^ (fmt.precision : Int) := by
    rw [← sub_add_cancel (fmt.precision : Int) 1, zpow_add_one₀ (by norm_num), ← fullWidth_eq hprecision]
    linarith
  rwa [div_lt_iff₀' (by positivity), ← zpow_add₀ (by norm_num)] at hquotient

variable {num den : Nat}

omit hprecision in
/-- The significand that a ratio is rounded to, once the exponent of its last bit is known. -/
theorem round_eq (hnum : 0 < num) (hden : 0 < den) {exponent : Int} (rounded : Nat)
    (hexponent : max fmt.least (log2Ratio num den - (fmt.precision - 1)) = exponent)
    (haround : Around rounded ((num : ℚ) / den / 2 ^ exponent)) :
    fmt.round num den =
      (let result : Scaled := if rounded = 2 * fmt.fullWidth then ⟨fmt.fullWidth, exponent + 1⟩ else ⟨rounded, exponent⟩
      if fmt.greatest < result.exponent then none else some result) := by
  have hrounded : roundDiv (num * 2 ^ (-exponent).toNat) (den * 2 ^ exponent.toNat) = rounded := by
    refine roundDiv_eq (Nat.mul_pos hden (Nat.two_pow_pos _)) ?_
    rw [ratio_div_zpow num den 2 Nat.two_pos]
    exact haround
  unfold round
  rw [if_neg (Nat.ne_of_gt hnum)]
  simp only [hexponent, hrounded]

/-- A ratio is rounded to the number that draws it. -/
theorem round_eq_of_draws (hx : fmt.Holds x) (hpos : 0 < x.significand) (hden : 0 < den)
    (hdraws : fmt.Draws x ((num : ℚ) / den)) : fmt.round num den = some x := by
  have hnum : 0 < num := by
    have hratio := hdraws.pos hpos
    rcases Nat.eq_zero_or_pos num with rfl | hnum
    · simp at hratio
    · exact hnum
  have hone : (1 : ℚ) < 2 := by norm_num
  have hlt := hdraws.lt hprecision hx
  obtain ⟨hlogLow, hlogHigh⟩ := log2Ratio_bounds hnum hden
  have hlog := (zpow_lt_zpow_iff_right₀ hone).mp (hlogLow.trans_lt hlt)
  have hleast := hx.least_le
  have hgreatest := hx.le_greatest
  by_cases hfull : (2 : ℚ) ^ (x.exponent + (fmt.precision - 1)) ≤ (num : ℚ) / den ∨ x.exponent = fmt.least
  · have hexponent : max fmt.least (log2Ratio num den - (fmt.precision - 1)) = x.exponent := by
      rcases hfull with hfull | hleast
      · have := (zpow_lt_zpow_iff_right₀ hone).mp (hfull.trans_lt hlogHigh)
        omega
      · omega
    rw [round_eq hnum hden x.significand hexponent hdraws.around]
    simp only [Nat.ne_of_lt hx.lt, ↓reduceIte]
    rw [if_neg (by omega)]
  · -- the ratio lies below a power of two, so it is first rounded with one bit more
    obtain ⟨hbelow, hexponent⟩ := not_or.mp hfull
    rw [not_le] at hbelow
    have hscale : (0 : ℚ) < 2 ^ x.exponent := by positivity
    have hwidth : (1 : ℚ) ≤ fmt.fullWidth := by exact_mod_cast fmt.fullWidth_pos
    have hquotient : (num : ℚ) / den / 2 ^ x.exponent < fmt.fullWidth := by
      rw [zpow_add₀ (by norm_num), ← fullWidth_eq hprecision] at hbelow
      rwa [div_lt_iff₀' hscale]
    have hreach := fmt.reach_le x
    have hlow := hdraws.1
    have hsignificand : x.significand = fmt.fullWidth := by
      have hclose : (x.significand : ℚ) < ((fmt.fullWidth + 1 : Nat) : ℚ) := by
        push_cast
        linarith
      exact Nat.le_antisymm (Nat.le_of_lt_succ (Nat.cast_lt.mp hclose)) (hx.full.resolve_right hexponent)
    rw [hsignificand, show fmt.reach x = 1 / 4 from if_pos ⟨hsignificand, by omega⟩] at hlow
    have hhalf : (num : ℚ) / den / 2 ^ (x.exponent - 1) = 2 * ((num : ℚ) / den / 2 ^ x.exponent) := by
      rw [zpow_sub_one₀ (by norm_num), ← div_div, div_inv_eq_mul, mul_comm]
    have hlogEq : log2Ratio num den = x.exponent - 1 + (fmt.precision - 1) := by
      refine log2Ratio_eq_of_bounds hnum hden ?_ (by rwa [add_right_comm, sub_add_cancel])
      rw [zpow_add₀ (by norm_num), ← fullWidth_eq hprecision, ← le_div_iff₀' (by positivity), hhalf]
      linarith
    have hbefore : max fmt.least (log2Ratio num den - (fmt.precision - 1)) = x.exponent - 1 := by omega
    rw [round_eq hnum hden (2 * fmt.fullWidth) hbefore]
    · simp only [↓reduceIte, sub_add_cancel]
      rw [if_neg (by omega), ← hsignificand]
    · rw [hhalf]
      refine ⟨?_, ?_, fun hodd => absurd (Nat.mul_mod_right 2 _) hodd⟩
      · push_cast
        linarith
      · push_cast
        linarith

/-- Rounding gives back a number of the format, however it is written. -/
theorem encodeRatio_eq (hx : fmt.Holds x) (hden : 0 < den) (hvalue : (num : ℚ) / den = x.value) :
    fmt.encodeRatio num den = fmt.encode x := by
  rcases Nat.eq_zero_or_pos x.significand with hzero | hpos
  · have hnum : num = 0 := by
      rw [Scaled.value, hzero, Nat.cast_zero, zero_mul, div_eq_zero_iff] at hvalue
      exact_mod_cast hvalue.resolve_right (Nat.cast_ne_zero.mpr (Nat.ne_of_gt hden))
    have hexponent : x.exponent = fmt.least := by
      refine hx.full.resolve_left fun hfull => ?_
      have hwidth := fmt.fullWidth_pos
      omega
    simp [encodeRatio, round, hnum, encode, hzero, hexponent]
  · rw [encodeRatio, round_eq_of_draws hprecision hx hpos hden (hvalue ▸ fmt.draws_value x)]

end Precision

end Format

end CoreC.Number
