import CoreC.Number.Decimal
import CoreC.Proofs.Number.Single

/-! # Decimals that read back

The decimal that is written for a double lies around it, because the finest grid that is tried has
more points than there are doubles, so reading it gives the double back.
-/

namespace CoreC

open Number Int Format Double

open Number (Format log2Ratio)

variable {den bound : Nat}

namespace Double

/-- A double is its sign and its magnitude. -/
theorem ofMagnitude_magnitude (x : Double) : ofMagnitude x.negative x.magnitude = x := by
  obtain ⟨bits⟩ := x
  have hlt := bits.toNat_lt
  unfold ofMagnitude negative magnitude
  congr 1
  rw [← UInt64.toNat_inj, UInt64.toNat_ofNat']
  simp only [decide_eq_true_eq]
  split <;> omega

end Double

namespace Decimal

/-- The number that a decimal stands for. -/
def value (d : Decimal) : ℚ := d.digits * 10 ^ d.exponent

theorem value_eq_div (d : Decimal) :
    d.value = ((d.digits * 10 ^ d.exponent.toNat : Nat) : ℚ) / ((10 ^ (-d.exponent).toNat : Nat) : ℚ) := by
  have hpower := zpow_eq_div 10 (by norm_num) d.exponent
  rw [Nat.cast_ofNat] at hpower
  rw [value, hpower, Nat.cast_mul, mul_div_assoc]

/-- The estimate of a decimal logarithm is at most one too large for powers of two in the range
of doubles. -/
theorem ten_zpow_estimate_le {k : Int} (hlow : -1100 ≤ k) (hhigh : k ≤ 1100) :
    (10 : ℚ) ^ ((k * 30103).fdiv 100000 - 1) ≤ 2 ^ k := by
  obtain ⟨t, ht⟩ : ∃ t, t = (k * 30103).fdiv 100000 := ⟨_, rfl⟩
  have hestimate : t * 100000 ≤ k * 30103 := by
    rw [ht, fdiv_eq_ediv_of_nonneg _ (by norm_num)]
    omega
  rw [← ht]
  rcases le_total 0 k with hk | hk
  · -- `10 ^ 59` is a little less than `2 ^ 196`
    rcases le_total t 1 with htail | htail
    · calc (10 : ℚ) ^ (t - 1) ≤ 10 ^ (0 : Int) := zpow_le_zpow_right₀ (by norm_num) (by omega)
        _ = 2 ^ (0 : Int) := by norm_num
        _ ≤ 2 ^ k := zpow_le_zpow_right₀ (by norm_num) hk
    · refine le_of_pow_le_pow_left₀ (n := 59) (by norm_num) (by positivity) ?_
      obtain ⟨n, hn⟩ := eq_ofNat_of_zero_le (show 0 ≤ t - 1 by omega)
      calc ((10 : ℚ) ^ (t - 1)) ^ 59 = (10 ^ 59) ^ n := by
            rw [hn, zpow_natCast, ← pow_mul, ← pow_mul, Nat.mul_comm]
        _ ≤ (2 ^ 196) ^ n := pow_le_pow_left₀ (by positivity) (by norm_num) n
        _ = 2 ^ ((196 * n : Nat) : Int) := by rw [zpow_natCast, pow_mul]
        _ ≤ 2 ^ (k * (59 : Nat)) := zpow_le_zpow_right₀ (by norm_num) (by push_cast; omega)
        _ = (2 ^ k) ^ 59 := by rw [zpow_mul, zpow_natCast]
  · -- `2 ^ 93` is a little less than `10 ^ 28`
    refine le_of_pow_le_pow_left₀ (n := 93) (by norm_num) (by positivity) ?_
    obtain ⟨n, hn⟩ := eq_ofNat_of_zero_le (show 0 ≤ -k by omega)
    calc ((10 : ℚ) ^ (t - 1)) ^ 93 = 10 ^ ((t - 1) * (93 : Nat)) := by rw [zpow_mul, zpow_natCast]
      _ ≤ 10 ^ (-((28 * n : Nat) : Int)) := zpow_le_zpow_right₀ (by norm_num) (by push_cast; omega)
      _ = ((10 ^ 28 : ℚ) ^ n)⁻¹ := by rw [zpow_neg, zpow_natCast, pow_mul]
      _ ≤ ((2 ^ 93 : ℚ) ^ n)⁻¹ := inv_anti₀ (by positivity) (pow_le_pow_left₀ (by positivity) (by norm_num) n)
      _ = (2 ^ k) ^ 93 := by
        rw [← neg_neg k, hn, zpow_neg, zpow_natCast, inv_pow, ← pow_mul, ← pow_mul, Nat.mul_comm]

/-- A ratio is at least the power of ten that its decimal logarithm says. -/
theorem ten_zpow_log10Ratio_le {num : Nat} (hnum : 0 < num) (hden : 0 < den)
    (hlow : -1100 ≤ log2Ratio num den) (hhigh : log2Ratio num den ≤ 1100) :
    (10 : ℚ) ^ log10Ratio num den ≤ (num : ℚ) / den := by
  have hbelow k : ¬ num * 10 ^ (-k).toNat < den * 10 ^ k.toNat ↔ (10 : ℚ) ^ k ≤ (num : ℚ) / den := by
    rw [ratio_lt_zpow_iff hden (by norm_num), not_lt, Nat.cast_ofNat]
  unfold log10Ratio
  dsimp only
  split
  next =>
    exact (ten_zpow_estimate_le hlow hhigh).trans (log2Ratio_bounds hnum hden).1
  next hestimate =>
    rw [decide_eq_true_eq, hbelow] at hestimate
    split
    next => exact hestimate
    next hnext => rwa [decide_eq_true_eq, hbelow] at hnext

variable {d : Decimal}

/-- A decimal lies between two powers of ten that the number of its digits gives. -/
theorem value_bounds (hpos : 0 < d.value) :
    (10 : ℚ) ^ (((toString d.digits).length : Int) + d.exponent - 1) ≤ d.value ∧
      d.value < 10 ^ (((toString d.digits).length : Int) + d.exponent) := by
  have hdigits : 0 < d.digits := by
    rcases Nat.eq_zero_or_pos d.digits with hzero | hdigits
    · simp [value, hzero] at hpos
    · exact hdigits
  have hscale : (0 : ℚ) < 10 ^ d.exponent := by positivity
  have hten : (10 : ℚ) ≠ 0 := by norm_num
  have hlength : 0 < d.digits.repr.length := Nat.length_repr_pos
  have hhigh : d.digits < 10 ^ d.digits.repr.length := (Nat.length_repr_le_iff hlength).mp le_rfl
  have hlow : 10 ^ (d.digits.repr.length - 1) ≤ d.digits := by
    rcases Nat.eq_zero_or_pos (d.digits.repr.length - 1) with hzero | hmore
    · rw [hzero]
      exact hdigits
    · exact not_lt.mp (mt (Nat.length_repr_le_iff hmore).mpr (by omega))
  change (10 : ℚ) ^ ((d.digits.repr.length : Int) + d.exponent - 1) ≤ _ ∧
    _ < (10 : ℚ) ^ ((d.digits.repr.length : Int) + d.exponent)
  constructor
  · rw [add_sub_right_comm, zpow_add₀ hten, value]
    refine mul_le_mul_of_nonneg_right ?_ hscale.le
    rw [← Nat.cast_pred hlength, zpow_natCast]
    exact_mod_cast hlow
  · rw [zpow_add₀ hten, value, zpow_natCast]
    refine mul_lt_mul_of_pos_right ?_ hscale
    exact_mod_cast hhigh

/-! ## What reads back -/

namespace Neighbourhood

variable {n : Neighbourhood} {x : Double}

/-- Quarters of the last bit of a double, as a ratio over the neighbourhood's denominator. -/
theorem quarters_eq (x : Double) (quarters : Nat) :
    ((quarters * 2 ^ (x.scaled.exponent - 2).toNat : Nat) : ℚ) / ((ofDouble x).den : ℚ) =
      quarters / 4 * 2 ^ x.scaled.exponent := by
  have hpower := zpow_eq_div 2 Nat.two_pos (x.scaled.exponent - 2)
  rw [neg_sub, Nat.cast_ofNat] at hpower
  have hfour : (2 : ℚ) ^ (x.scaled.exponent - 2) = 2 ^ x.scaled.exponent / 4 := by
    rw [zpow_sub₀ (by norm_num)]
    norm_num
  change _ / ((2 ^ (2 - x.scaled.exponent).toNat : Nat) : ℚ) = _
  rw [Nat.cast_mul, mul_div_assoc, ← hpower, hfour]
  ring

theorem den_pos (x : Double) : 0 < (ofDouble x).den := Nat.two_pow_pos _

/-- Comparing a decimal with one end of a neighbourhood. -/
theorem le_point_iff (d : Decimal) {c : ℚ}
    (hbound : (bound : ℚ) / (ofDouble x).den = c * 2 ^ x.scaled.exponent) :
    bound * 10 ^ (-d.exponent).toNat ≤ d.digits * (ofDouble x).den * 10 ^ d.exponent.toNat ↔
      c ≤ d.value / 2 ^ x.scaled.exponent := by
  have hscale : (0 : ℚ) < ((10 ^ (-d.exponent).toNat : Nat) : ℚ) := Nat.cast_pos.mpr (Nat.pow_pos (by norm_num))
  rw [le_div_iff₀ (by positivity), ← hbound, value_eq_div, div_le_div_iff₀ (Nat.cast_pos.mpr (den_pos x)) hscale,
    ← Nat.cast_mul, ← Nat.cast_mul, Nat.cast_le, Nat.mul_right_comm]

theorem point_le_iff (d : Decimal) {c : ℚ}
    (hbound : (bound : ℚ) / (ofDouble x).den = c * 2 ^ x.scaled.exponent) :
    d.digits * (ofDouble x).den * 10 ^ d.exponent.toNat ≤ bound * 10 ^ (-d.exponent).toNat ↔
      d.value / 2 ^ x.scaled.exponent ≤ c := by
  have hscale : (0 : ℚ) < ((10 ^ (-d.exponent).toNat : Nat) : ℚ) := Nat.cast_pos.mpr (Nat.pow_pos (by norm_num))
  rw [div_le_iff₀ (by positivity), ← hbound, value_eq_div, div_le_div_iff₀ hscale (Nat.cast_pos.mpr (den_pos x)),
    ← Nat.cast_mul, ← Nat.cast_mul, Nat.cast_le, Nat.mul_right_comm]

section Ends

variable (hx : 0 < x.scaled.significand)

theorem high_eq (x : Double) :
    ((ofDouble x).high : ℚ) / (ofDouble x).den = (x.scaled.significand + 1 / 2) * 2 ^ x.scaled.exponent := by
  refine (quarters_eq x (4 * x.scaled.significand + 2)).trans ?_
  push_cast
  ring

theorem value_eq (x : Double) : ((ofDouble x).value : ℚ) / (ofDouble x).den = x.scaled.value := by
  refine (quarters_eq x (4 * x.scaled.significand)).trans ?_
  rw [Scaled.value]
  push_cast
  ring

include hx

theorem low_eq : ((ofDouble x).low : ℚ) / (ofDouble x).den =
      (x.scaled.significand - double.reach x.scaled) * 2 ^ x.scaled.exponent := by
  refine (quarters_eq x (4 * x.scaled.significand - if double.Narrow x.scaled then 1 else 2)).trans ?_
  unfold reach
  split
  · rw [Nat.cast_sub (by omega)]
    push_cast
    ring
  · rw [Nat.cast_sub (by omega)]
    push_cast
    ring

/-- A decimal reads back as a double when the double draws it. -/
theorem contains_iff (d : Decimal) : (ofDouble x).contains d = true ↔ double.Draws x.scaled d.value := by
  have hlow := le_point_iff d (low_eq hx)
  have hlow' := point_le_iff d (low_eq hx)
  have hhigh := point_le_iff d (high_eq x)
  have hhigh' := le_point_iff d (high_eq x)
  have hclosed : (ofDouble x).closed = decide (x.scaled.significand % 2 = 0) := rfl
  unfold contains Draws
  dsimp only
  rw [hclosed]
  by_cases heven : x.scaled.significand % 2 = 0
  · simp only [heven, decide_true, ↓reduceIte, Bool.and_eq_true, decide_eq_true_eq, ne_eq, not_true_eq_false,
      false_implies, and_true, hlow, hhigh]
  · simp only [heven, decide_false, Bool.false_eq_true, ↓reduceIte, Bool.and_eq_true, decide_eq_true_eq, ne_eq,
      not_false_eq_true, true_implies]
    rw [← Nat.not_le, ← Nat.not_le, hlow', hhigh', not_le, not_le]
    exact ⟨fun hstrict => ⟨hstrict.1.le, hstrict.2.le, hstrict⟩, fun hdraws => hdraws.2.2⟩

end Ends

/-! ## Grids -/

variable {exponent : Int}

theorem contains_of_onGrid (hgrid : n.onGrid exponent = some d) : n.contains d = true := by
  have hchosen : ∀ nearer farther,
      (if n.contains nearer then some nearer else if n.contains farther then some farther else none) = some d →
      n.contains d = true := by
    intro nearer farther hchosen
    split at hchosen
    next hnear =>
      cases hchosen
      exact hnear
    next =>
      split at hchosen
      next hfar =>
        cases hchosen
        exact hfar
      next => cases hchosen
  exact hchosen _ _ hgrid

/-- The search ends on a grid that has a decimal which reads back, if there is one. -/
theorem contains_shortest {count : Nat} (hgrid : ∃ i < count, ∃ d, n.onGrid (exponent - i) = some d) :
    n.contains (n.shortest count exponent) = true := by
  induction count generalizing exponent with
  | zero =>
    obtain ⟨i, hi, -⟩ := hgrid
    exact absurd hi (Nat.not_lt_zero i)
  | succ count ih =>
    unfold shortest
    split
    next d hd => exact contains_of_onGrid hd
    next hnone =>
      obtain ⟨i, hi, d, hd⟩ := hgrid
      cases i with
      | zero =>
        rw [Nat.cast_zero, sub_zero, hnone] at hd
        cases hd
      | succ i =>
        refine ih ⟨i, by omega, d, ?_⟩
        rw [← hd]
        congr 1
        push_cast
        ring

/-- The nearer of the two whole numbers around a ratio is at most one half away. -/
theorem nearer_bounds (num : Nat) (hden : 0 < den) :
    let nearer := if 2 * (num % den) < den then num / den else num / den + 1
    (nearer : ℚ) - 1 / 2 ≤ (num : ℚ) / den ∧ (num : ℚ) / den ≤ nearer + 1 / 2 := by
  have hpos : (0 : ℚ) < den := Nat.cast_pos.mpr hden
  have hrest : ((num % den : Nat) : ℚ) < den := Nat.cast_lt.mpr (Nat.mod_lt num hden)
  have hsplit : (num : ℚ) = den * (num / den : Nat) + ((num % den : Nat) : ℚ) := by
    exact_mod_cast (Nat.div_add_mod num den).symm
  dsimp only
  rw [le_div_iff₀ hpos, div_le_iff₀ hpos]
  split
  next hbelow =>
    have hbelow' : 2 * ((num % den : Nat) : ℚ) < den := by exact_mod_cast hbelow
    constructor <;> linarith
  next habove =>
    have habove' : (den : ℚ) ≤ 2 * ((num % den : Nat) : ℚ) := by exact_mod_cast not_lt.mp habove
    push_cast
    constructor <;> linarith

/-- A grid with steps of less than twice the reach of a double has a decimal that reads back. -/
theorem exists_onGrid (hx : 0 < x.scaled.significand)
    (hstep : (10 : ℚ) ^ exponent / 2 < double.reach x.scaled * 2 ^ x.scaled.exponent) :
    ∃ d, (ofDouble x).onGrid exponent = some d := by
  have hscale : (0 : ℚ) < 2 ^ x.scaled.exponent := by positivity
  have hten : (0 : ℚ) < 10 ^ exponent := by positivity
  let num := (ofDouble x).value * 10 ^ (-exponent).toNat
  let den := (ofDouble x).den * 10 ^ exponent.toNat
  have hden : 0 < den := Nat.mul_pos (den_pos x) (Nat.pow_pos (by norm_num))
  have hratio : (num : ℚ) / den * 10 ^ exponent = x.scaled.value := by
    have hdiv := ratio_div_zpow (ofDouble x).value (ofDouble x).den 10 (by norm_num) exponent
    rw [value_eq, Nat.cast_ofNat] at hdiv
    rw [hdiv, div_mul_cancel₀ _ hten.ne']
  let nearer : Decimal := if 2 * (num % den) < den then ⟨num / den, exponent⟩ else ⟨num / den + 1, exponent⟩
  have hnearer : nearer.value =
      (if 2 * (num % den) < den then num / den else num / den + 1 : Nat) * 10 ^ exponent := by
    simp only [nearer]
    split <;> rfl
  obtain ⟨hlow, hhigh⟩ := nearer_bounds num hden
  have hdraws : double.Draws x.scaled nearer.value := by
    have hbelow : x.scaled.significand - double.reach x.scaled < nearer.value / 2 ^ x.scaled.exponent := by
      rw [lt_div_iff₀ hscale, hnearer, sub_mul, ← Scaled.value, ← hratio]
      nlinarith
    have habove : nearer.value / 2 ^ x.scaled.exponent < x.scaled.significand + 1 / 2 := by
      have hreach := double.reach_le x.scaled
      rw [div_lt_iff₀ hscale, hnearer, add_mul, ← Scaled.value, ← hratio]
      nlinarith
    exact ⟨hbelow.le, habove.le, fun _ => ⟨hbelow, habove⟩⟩
  exact ⟨nearer, if_pos ((contains_iff hx nearer).mpr hdraws)⟩

end Neighbourhood

/-! ## Reading back -/

theorem significand_pos {x : Double} (hx : x.magnitude ≠ 0) : 0 < x.scaled.significand := by
  have hwidth := double.fullWidth_pos
  have hsplit := Nat.div_add_mod x.magnitude double.fullWidth
  unfold scaled decode
  dsimp only
  split
  next hfield =>
    rw [hfield, Nat.mul_zero, Nat.zero_add] at hsplit
    dsimp only
    rw [hsplit]
    exact Nat.pos_of_ne_zero hx
  next => exact Nat.add_pos_left hwidth _

section Finite

variable {x : Double} (hfinite : x.isFinite = true)

include hfinite

theorem holds_scaled : double.Holds x.scaled :=
  holds_decode (of_decide_eq_true hfinite) (by decide)

/-- The finest grid that is tried is finer than the doubles are apart. -/
theorem step_lt_reach {k : Int} (hk : (10 : ℚ) ^ k ≤ x.scaled.value) :
    (10 : ℚ) ^ (k - 16) / 2 < double.reach x.scaled * 2 ^ x.scaled.exponent := by
  have hscale : (0 : ℚ) < 2 ^ x.scaled.exponent := by positivity
  have hfits : (x.scaled.significand : ℚ) / (10 ^ 16 * 2) < double.reach x.scaled := by
    unfold reach
    split
    next hnarrow =>
      rw [hnarrow.1, show double.fullWidth = 2 ^ 52 from rfl]
      norm_num
    next =>
      have hlt : x.scaled.significand < 2 ^ 53 := (holds_scaled hfinite).lt
      have hlt' : (x.scaled.significand : ℚ) < ((2 ^ 53 : Nat) : ℚ) := Nat.cast_lt.mpr hlt
      rw [div_lt_iff₀ (by norm_num)]
      norm_num at hlt' ⊢
      linarith
  calc (10 : ℚ) ^ (k - 16) / 2 = 10 ^ k / (10 ^ 16 * 2) := by
        rw [zpow_sub₀ (by norm_num), div_div]
        norm_num
    _ ≤ x.scaled.value / (10 ^ 16 * 2) := by
        exact div_le_div_of_nonneg_right hk (by norm_num)
    _ = x.scaled.significand / (10 ^ 16 * 2) * 2 ^ x.scaled.exponent := by rw [Scaled.value]; ring
    _ < double.reach x.scaled * 2 ^ x.scaled.exponent := mul_lt_mul_of_pos_right hfits hscale

variable (hx : 0 < x.scaled.significand)

include hx

/-- The range of the finite doubles. -/
theorem scaled_bounds : (2 : ℚ) ^ (-1074 : Int) ≤ x.scaled.value ∧
      x.scaled.value < (2 : ℚ) ^ (1024 : Int) := by
  have hholds := holds_scaled hfinite
  have hlow : (1 : ℚ) ≤ x.scaled.significand := by exact_mod_cast hx
  have hhigh : (x.scaled.significand : ℚ) < ((2 ^ 53 : Nat) : ℚ) := Nat.cast_lt.mpr hholds.lt
  constructor
  · calc (2 : ℚ) ^ (-1074 : Int) ≤ 2 ^ x.scaled.exponent := zpow_le_zpow_right₀ (by norm_num) hholds.least_le
      _ ≤ x.scaled.value := le_mul_of_one_le_left (by positivity) hlow
  · calc (x.scaled.significand : ℚ) * 2 ^ x.scaled.exponent < 2 ^ 53 * 2 ^ x.scaled.exponent := by
          refine mul_lt_mul_of_pos_right ?_ (by positivity)
          exact_mod_cast hhigh
      _ ≤ 2 ^ 53 * 2 ^ (971 : Int) := by
          refine mul_le_mul_of_nonneg_left ?_ (by norm_num)
          exact zpow_le_zpow_right₀ (by norm_num) hholds.le_greatest
      _ = 2 ^ (1024 : Int) := by
          rw [← zpow_natCast, ← zpow_add₀ (by norm_num)]
          norm_num

/-- The decimal that is written for a double is one that the double draws. -/
theorem draws_ofDouble (hmagnitude : x.magnitude ≠ 0) : double.Draws x.scaled (ofDouble x).value := by
  have hone : (1 : ℚ) < 2 := by norm_num
  obtain ⟨hlow, hhigh⟩ := scaled_bounds hfinite hx
  have hden := Neighbourhood.den_pos x
  have hvalue := Neighbourhood.value_eq x
  have hnum : 0 < (Neighbourhood.ofDouble x).value := by
    have hpos : (0 : ℚ) < (Neighbourhood.ofDouble x).value / (Neighbourhood.ofDouble x).den := by
      rw [hvalue]
      exact lt_of_lt_of_le (by positivity) hlow
    rw [div_pos_iff_of_pos_right (Nat.cast_pos.mpr hden)] at hpos
    exact_mod_cast hpos
  obtain ⟨hlogLow, hlogHigh⟩ := log2Ratio_bounds hnum hden
  rw [hvalue] at hlogLow hlogHigh
  have habove := (zpow_lt_zpow_iff_right₀ hone).mp (hlow.trans_lt hlogHigh)
  have hbelow := (zpow_lt_zpow_iff_right₀ hone).mp (hlogLow.trans_lt hhigh)
  have hten := ten_zpow_log10Ratio_le hnum hden (by omega) (by omega)
  rw [hvalue] at hten
  rw [ofDouble, if_neg hmagnitude, ← Neighbourhood.contains_iff hx]
  refine Neighbourhood.contains_shortest ⟨17, by norm_num, ?_⟩
  refine Neighbourhood.exists_onGrid hx ?_
  have hgrid : log10Ratio (Neighbourhood.ofDouble x).value (Neighbourhood.ofDouble x).den + 1 - ((17 : Nat) : Int) =
      log10Ratio (Neighbourhood.ofDouble x).value (Neighbourhood.ofDouble x).den - 16 := by
    push_cast
    ring
  rw [hgrid]
  exact step_lt_reach hfinite hten

/-- What a double draws is in the range in which decimals are rounded. -/
theorem beyondRange_of_draws (hdraws : double.Draws x.scaled d.value) : d.beyondRange = none := by
  have hholds := holds_scaled hfinite
  have hpos := hdraws.pos hx
  obtain ⟨hlow, hhigh⟩ := value_bounds hpos
  have hlarge : d.value < 10 ^ (400 : Int) := by
    calc d.value < 2 ^ (x.scaled.exponent + 53) := hdraws.lt (by decide) hholds
      _ ≤ 2 ^ (1024 : Int) := by
          have hgreatest : x.scaled.exponent ≤ 971 := hholds.le_greatest
          exact zpow_le_zpow_right₀ (by norm_num) (by omega)
      _ = (2 ^ 64 : ℚ) ^ 16 := by rw [← pow_mul, zpow_ofNat]
      _ ≤ (10 ^ 25 : ℚ) ^ 16 := pow_le_pow_left₀ (by positivity) (by norm_num) 16
      _ = 10 ^ (400 : Int) := by rw [← pow_mul, zpow_ofNat]
  have hsmall : (10 : ℚ) ^ (-401 : Int) < d.value := by
    calc (10 : ℚ) ^ (-401 : Int) < 10 ^ (-400 : Int) := zpow_lt_zpow_right₀ (by norm_num) (by norm_num)
      _ = ((10 ^ 16 : ℚ) ^ 25)⁻¹ := by rw [← pow_mul, zpow_neg, zpow_ofNat]
      _ ≤ ((2 ^ 43 : ℚ) ^ 25)⁻¹ := inv_anti₀ (by positivity) (pow_le_pow_left₀ (by positivity) (by norm_num) 25)
      _ = 1 / 2 * 2 ^ (-1074 : Int) := by
          rw [← pow_mul, zpow_neg, zpow_ofNat, one_div, ← mul_inv, ← pow_succ']
      _ ≤ 1 / 2 * 2 ^ x.scaled.exponent :=
          mul_le_mul_of_nonneg_left (zpow_le_zpow_right₀ (by norm_num) hholds.least_le) (by norm_num)
      _ ≤ d.value := by
          have hsignificand : (1 : ℚ) ≤ x.scaled.significand := by exact_mod_cast hx
          have hreach := double.reach_le x.scaled
          rw [← le_div_iff₀ (by positivity)]
          exact le_trans (by linarith) hdraws.1
  have hten : (1 : ℚ) < 10 := by norm_num
  have htop := (zpow_lt_zpow_iff_right₀ hten).mp (hlow.trans_lt hlarge)
  have hbottom := (zpow_lt_zpow_iff_right₀ hten).mp (hsmall.trans hhigh)
  unfold beyondRange
  dsimp only
  rw [if_neg (by omega), if_neg (by omega)]

/-- A decimal that a double draws reads as that double. -/
theorem toDouble_of_draws (hdraws : double.Draws x.scaled d.value) : d.toDouble x.negative = x := by
  have hdigits : d.digits ≠ 0 := by
    intro hzero
    have hpos := hdraws.pos hx
    simp [value, hzero] at hpos
  have hround : double.round (d.digits * 10 ^ d.exponent.toNat) (10 ^ (-d.exponent).toNat) =
      some x.scaled := by
    refine round_eq_of_draws (by decide) (holds_scaled hfinite) hx (Nat.pow_pos (by norm_num)) ?_
    rwa [← value_eq_div]
  rw [toDouble, if_neg hdigits, beyondRange_of_draws hfinite hx hdraws]
  dsimp only
  rw [ofRatio, encodeRatio, hround]
  dsimp only
  rw [scaled, encode_decode, ofMagnitude_magnitude]

end Finite

/-- **Doubles read back.** The decimal that is written for a finite double reads as that double. -/
theorem toDouble_ofDouble {x : Double} (hfinite : x.isFinite = true) :
    (ofDouble x).toDouble x.negative = x := by
  by_cases hzero : x.magnitude = 0
  · rw [ofDouble, if_pos hzero, toDouble, if_pos rfl, ← hzero, ofMagnitude_magnitude]
  · have hx := significand_pos hzero
    exact toDouble_of_draws hfinite hx (draws_ofDouble hfinite hx hzero)

end Decimal

end CoreC
