import CoreC.Proofs.Domain.Overflow

/-! # Signs of exact results

The tables of the sign domain hold of exact integers: the sign of a result is among those that
the tables list for the signs of its operands. For an operator that wraps this is so where the
mathematical result lies in range; a conversion may wrap, and is covered as it does.
-/

namespace CoreC

open List Int Polarity Target

variable {source wanted : IntType}

namespace Number

/-! ## Signs of bitwise results -/

theorem bitAnd_neg_iff (x y : Int) : bitAnd x y < 0 ↔ x < 0 ∧ y < 0 := by
  cases x <;> cases y <;> simp only [bitAnd, ofNat_eq_natCast] <;> omega

theorem bitOr_neg_iff (x y : Int) : bitOr x y < 0 ↔ x < 0 ∨ y < 0 := by
  cases x <;> cases y <;> simp only [bitOr, ofNat_eq_natCast] <;> omega

theorem bitXor_neg_iff (x y : Int) : bitXor x y < 0 ↔ (x < 0 ↔ 0 ≤ y) := by
  cases x <;> cases y <;> simp only [bitXor, ofNat_eq_natCast] <;> omega

@[simp] theorem zero_bitAnd (y : Int) : bitAnd 0 y = 0 := by cases y <;> simp [bitAnd, bitsOutside]

@[simp] theorem bitAnd_zero (x : Int) : bitAnd x 0 = 0 := by cases x <;> simp [bitAnd, bitsOutside]

@[simp] theorem zero_bitOr (y : Int) : bitOr 0 y = y := by cases y <;> simp [bitOr, bitsOutside]

@[simp] theorem bitOr_zero (x : Int) : bitOr x 0 = x := by cases x <;> simp [bitOr, bitsOutside]

@[simp] theorem zero_bitXor (y : Int) : bitXor 0 y = y := by cases y <;> simp [bitXor]

@[simp] theorem bitXor_zero (x : Int) : bitXor x 0 = x := by cases x <;> simp [bitXor]

/-- A disjunction has every bit of its operands. -/
theorem eq_zero_of_bitOr {x y : Int} (hx : 0 ≤ x) (hy : 0 ≤ y) (hzero : bitOr x y = 0) : x = 0 := by
  obtain ⟨m, rfl⟩ := Int.eq_ofNat_of_zero_le hx
  obtain ⟨k, rfl⟩ := Int.eq_ofNat_of_zero_le hy
  have hbits : m ||| k = 0 := Int.ofNat.inj hzero
  rw [(Nat.or_eq_zero_iff.mp hbits).1, Int.natCast_zero]

end Number

namespace Polarity

/-- Sign of an integer. -/
def ofInt (n : Int) : Polarity := if n = 0 then .zero else if 0 < n then .pos else .neg

variable {n x y : Int}

@[simp] theorem ofInt_eq_zero : ofInt n = .zero ↔ n = 0 := by
  unfold ofInt
  split <;> (try split) <;> simp_all

@[simp] theorem ofInt_eq_pos : ofInt n = .pos ↔ 0 < n := by
  unfold ofInt
  split <;> (try split) <;> simp_all

@[simp] theorem ofInt_eq_neg : ofInt n = .neg ↔ n < 0 := by
  unfold ofInt
  split <;> (try split) <;> simp_all <;> omega

@[simp] theorem mem_all (sign : Polarity) : sign ∈ all := by cases sign <;> decide

theorem ofInt_neg (n : Int) : ofInt (-n) = (ofInt n).flip := by
  cases hn : ofInt n <;> simp only [flip, ofInt_eq_zero, ofInt_eq_pos, ofInt_eq_neg] at hn ⊢ <;> omega

theorem abs_ofInt (hn : 0 ≤ n) : (ofInt n).abs = ofInt n := by
  cases hsign : ofInt n with
  | neg =>
    rw [ofInt_eq_neg] at hsign
    omega
  | zero | pos => rfl

theorem ofInt_add_mem (x y : Int) : ofInt (x + y) ∈ add (ofInt x) (ofInt y) := by
  cases hx : ofInt x <;> cases hy : ofInt y <;>
    simp only [ofInt_eq_zero, ofInt_eq_pos, ofInt_eq_neg] at hx hy <;>
    simp [add] <;> omega

theorem ofInt_sub_mem (x y : Int) : ofInt (x - y) ∈ add (ofInt x) (ofInt y).flip := by
  rw [sub_eq_add_neg, ← ofInt_neg]
  exact ofInt_add_mem x (-y)

theorem ofInt_mul_mem (x y : Int) : ofInt (x * y) ∈ arith .mul (ofInt x) (ofInt y) := by
  by_cases hzero : x = 0 ∨ y = 0
  · have hproduct : x * y = 0 := Int.mul_eq_zero.mpr hzero
    simp [arith, hproduct, hzero]
  · cases hx : ofInt x <;> cases hy : ofInt y <;>
      simp only [ofInt_eq_zero, ofInt_eq_pos, ofInt_eq_neg] at hx hy <;> try omega
    · exact mem_singleton.mpr (ofInt_eq_pos.mpr (Int.mul_pos_of_neg_of_neg hx hy))
    · exact mem_singleton.mpr (ofInt_eq_neg.mpr (Int.mul_neg_of_neg_of_pos hx hy))
    · exact mem_singleton.mpr (ofInt_eq_neg.mpr (Int.mul_neg_of_pos_of_neg hx hy))
    · exact mem_singleton.mpr (ofInt_eq_pos.mpr (Int.mul_pos hx hy))

/-- The signs of a number that is not negative. -/
private theorem ofInt_mem_zero_pos (hn : 0 ≤ n) : ofInt n ∈ [zero, pos] := by
  simp only [mem_cons, ofInt_eq_zero, ofInt_eq_pos, not_mem_nil]
  omega

private theorem ofInt_mem_zero_neg (hn : n ≤ 0) : ofInt n ∈ [zero, neg] := by
  simp only [mem_cons, ofInt_eq_zero, ofInt_eq_neg, not_mem_nil]
  omega

theorem ofInt_tdiv_mem (hy : y ≠ 0) : ofInt (x.tdiv y) ∈ arith .div (ofInt x) (ofInt y) := by
  cases hxsign : ofInt x with
  | zero =>
    rw [ofInt_eq_zero] at hxsign
    simp [arith, hxsign]
  | pos =>
    rw [ofInt_eq_pos] at hxsign
    cases hysign : ofInt y <;> simp only [ofInt_eq_zero, ofInt_eq_pos, ofInt_eq_neg] at hysign
    · exact ofInt_mem_zero_neg (Int.tdiv_nonpos_of_nonneg_of_nonpos (by omega) (by omega))
    · exact absurd hysign hy
    · exact ofInt_mem_zero_pos (Int.tdiv_nonneg (by omega) (by omega))
  | neg =>
    rw [ofInt_eq_neg] at hxsign
    cases hysign : ofInt y <;> simp only [ofInt_eq_zero, ofInt_eq_pos, ofInt_eq_neg] at hysign
    · exact ofInt_mem_zero_pos (tdiv_nonneg_of_nonpos_of_nonpos (by omega) (by omega))
    · exact absurd hysign hy
    · apply ofInt_mem_zero_neg
      have hflip : 0 ≤ (-x).tdiv y := Int.tdiv_nonneg (by omega) (by omega)
      rw [Int.neg_tdiv] at hflip
      omega

theorem ofInt_tmod_mem (x y : Int) : ofInt (x.tmod y) ∈ arith .mod (ofInt x) (ofInt y) := by
  cases hxsign : ofInt x <;> simp only [ofInt_eq_zero, ofInt_eq_pos, ofInt_eq_neg] at hxsign
  · apply ofInt_mem_zero_neg
    have hflip : 0 ≤ (-x).tmod y := tmod_nonneg y (by omega)
    rw [neg_tmod] at hflip
    omega
  · simp [arith, hxsign]
  · exact ofInt_mem_zero_pos (tmod_nonneg y (by omega))

section Bitwise

open Number

theorem ofInt_bitAnd_mem (x y : Int) : ofInt (bitAnd x y) ∈ arith .bitAnd (ofInt x) (ofInt y) := by
  have hneg := bitAnd_neg_iff x y
  cases hx : ofInt x <;> cases hy : ofInt y <;>
    simp only [ofInt_eq_zero, ofInt_eq_pos, ofInt_eq_neg] at hx hy <;> simp [arith, hx, hy] <;> omega

theorem ofInt_bitOr_mem (x y : Int) : ofInt (bitOr x y) ∈ arith .bitOr (ofInt x) (ofInt y) := by
  have hneg := bitOr_neg_iff x y
  have hzero := eq_zero_of_bitOr (x := x) (y := y)
  cases hx : ofInt x <;> cases hy : ofInt y <;>
    simp only [ofInt_eq_zero, ofInt_eq_pos, ofInt_eq_neg] at hx hy <;> simp [arith, hx, hy] <;> omega

theorem ofInt_bitXor_mem (x y : Int) : ofInt (bitXor x y) ∈ arith .bitXor (ofInt x) (ofInt y) := by
  have hneg := bitXor_neg_iff x y
  cases hx : ofInt x <;> cases hy : ofInt y <;>
    simp only [ofInt_eq_zero, ofInt_eq_pos, ofInt_eq_neg] at hx hy <;> simp [arith, hx, hy] <;> omega

end Bitwise

/-- A shift to the left may wrap, and so reach any sign. -/
theorem ofInt_mem_shiftLeft (hzero : x = 0 → n = 0) (hcount : y = 0 → n = x) :
    ofInt n ∈ arith .shl (ofInt x) (ofInt y) := by
  by_cases hx : x = 0
  · simp [arith, hx, hzero hx]
  · by_cases hy : y = 0
    · simp [arith, hx, hy, hcount hy]
    · simp [arith, hx, hy]

theorem ofInt_shiftRight_mem (hy : 0 ≤ y) :
    ofInt (x / 2 ^ y.toNat) ∈ arith .shr (ofInt x) (ofInt y) := by
  have hpos : (0 : Int) < 2 ^ y.toNat := Int.pow_pos (by decide)
  by_cases hcount : y = 0
  · by_cases hx : x = 0 <;> simp [arith, hcount, hx]
  have hcountPos : ofInt y = .pos := ofInt_eq_pos.mpr (by omega)
  cases hx : ofInt x <;> simp only [ofInt_eq_zero, ofInt_eq_pos, ofInt_eq_neg] at hx
  · simpa [arith, hcountPos] using ediv_neg_of_neg_of_pos hx hpos
  · simp [arith, hx]
  · rw [hcountPos]
    exact ofInt_mem_zero_pos (Int.ediv_nonneg (Int.le_of_lt hx) (Int.le_of_lt hpos))

/-- Two numbers compare in one of the ways that their signs allow. -/
theorem compare_mem_orders (x y : Int) : Ord.compare x y ∈ orders (ofInt x) (ofInt y) := by
  rcases Int.lt_trichotomy x y with hlt | rfl | hgt
  · rw [Int.compare_eq_lt.mpr hlt]
    cases hx : ofInt x <;> cases hy : ofInt y <;>
      simp only [ofInt_eq_zero, ofInt_eq_pos, ofInt_eq_neg] at hx hy <;>
      first | omega | decide
  · rw [Int.compare_eq_eq.mpr rfl]
    cases ofInt x <;> decide
  · rw [Int.compare_eq_gt.mpr hgt]
    cases hx : ofInt x <;> cases hy : ofInt y <;>
      simp only [ofInt_eq_zero, ofInt_eq_pos, ofInt_eq_neg] at hx hy <;>
      first | omega | decide

end Polarity

namespace Target

open Number Polarity

variable {t : Target} {type : IntType} {op : BinOp} {x y n : Int}

/-- An exact quotient or remainder has a divisor that is not zero. -/
theorem ne_zero_of_arith_ok (hdivides : op.divides = true) (hn : t.arith type op x y = .ok n) : y ≠ 0 := by
  rintro rfl
  cases op <;> simp [BinOp.divides, arith] at hdivides hn

/-- The sign of an exact result is in the table, unless the result overflowed. -/
theorem ofInt_mem_arith (htwos : t.complement = .twos) (hx : t.InRange type x) (hy : t.InRange type y)
    (hfits : t.Fits type op x y) (hn : t.arith type op x y = .ok n) :
    Polarity.ofInt n ∈ Polarity.arith op (Polarity.ofInt x) (Polarity.ofInt y) := by
  cases op with
  | add =>
    cases hn
    rw [reduce_signedWord (hfits _ rfl)]
    exact ofInt_add_mem x y
  | sub =>
    cases hn
    rw [reduce_signedWord (hfits _ rfl)]
    exact ofInt_sub_mem x y
  | mul =>
    cases hn
    rw [reduce_signedWord (hfits _ rfl)]
    exact ofInt_mul_mem x y
  | div =>
    have hdivisor := ne_zero_of_arith_ok rfl hn
    simp only [arith, if_neg hdivisor] at hn
    cases hn
    rw [reduce_signedWord (hfits _ rfl)]
    exact ofInt_tdiv_mem hdivisor
  | mod =>
    have hdivisor := ne_zero_of_arith_ok rfl hn
    simp only [arith, if_neg hdivisor] at hn
    cases hn
    rw [reduce_signedWord (hfits _ rfl)]
    exact ofInt_tmod_mem x y
  | bitAnd =>
    cases hn
    rw [reduce_signedWord (inRange_bitAnd htwos hx hy)]
    exact ofInt_bitAnd_mem x y
  | bitOr =>
    cases hn
    rw [reduce_signedWord (inRange_bitOr htwos hx hy)]
    exact ofInt_bitOr_mem x y
  | bitXor =>
    cases hn
    rw [reduce_signedWord (inRange_bitXor htwos hx hy)]
    exact ofInt_bitXor_mem x y
  | shl =>
    simp only [arith] at hn
    split at hn <;> cases hn
    apply ofInt_mem_shiftLeft
    · rintro rfl
      rw [Int.zero_mul, reduce_signedWord (t.inRange_zero type)]
    · rintro rfl
      rw [Int.toNat_zero, Int.pow_zero, Int.mul_one, reduce_signedWord hx]
  | shr =>
    simp only [arith] at hn
    split at hn
    next => cases hn
    next hcount =>
      cases hn
      rw [reduce_signedWord (inRange_shiftRight htwos hx y.toNat)]
      exact ofInt_shiftRight_mem (by omega)
  | eq | ne | lt | le | gt | ge => cases hn

/-- A conversion that does not narrow maps only zero to zero. -/
theorem reduce_ne_zero (htwos : t.complement = .twos)
    (hwidth : t.intWidth source.rank ≤ t.intWidth wanted.rank) (hx : t.InRange source x)
    (hne : x ≠ 0) : t.reduce wanted x ≠ 0 := by
  intro hzero
  have hmod := t.reduce_emod wanted x
  rw [hzero, zero_emod, span_of_not_twoZeros fun hzeros => by simp [TwoZeros, htwos] at hzeros] at hmod
  have hbits : 2 ^ t.intBits source.rank ≤ 2 ^ t.intBits wanted.rank := by
    apply Nat.pow_le_pow_right (by omega)
    unfold intBits
    omega
  have hbound := natAbs_lt_of_inRange hx
  have hdvd : ((2 ^ t.intBits wanted.rank : Nat) : Int) ∣ x := dvd_of_emod_eq_zero hmod.symm
  have hle := Nat.le_of_dvd (natAbs_pos.mpr hne) (ofNat_dvd_left.mp hdvd)
  omega

end Target

namespace Sign

variable {a b : Sign} {x y n : Int} {signs : List Polarity}

theorem represents_iff : a.Represents n ↔ Polarity.ofInt n ∈ a.polarities := by
  unfold Represents ofInt Polarity.ofInt
  cases a <;> by_cases hzero : n = 0 <;> by_cases hpos : 0 < n <;>
    simp [polarities, Polarity.all, hzero, hpos]

/-- One of the elements for a list of signs stands for a number with a sign of the list. -/
theorem exists_ofPolarities (hn : Polarity.ofInt n ∈ signs) :
    ∃ a ∈ ofPolarities signs, a.Represents n := by
  unfold ofPolarities
  split
  · exact ⟨.top, mem_singleton_self _, .inl rfl⟩
  · cases hsign : Polarity.ofInt n <;> rw [hsign] at hn
    · exact ⟨.minus, by simp [hn], by simp [represents_iff, hsign, polarities]⟩
    · exact ⟨.zero, by simp [hn], by simp [represents_iff, hsign, polarities]⟩
    · exact ⟨.plus, by simp [hn], by simp [represents_iff, hsign, polarities]⟩

theorem exists_gather {signed : Bool} (hsigned : signed = false → 0 ≤ n)
    (hn : Polarity.ofInt n ∈ signs) : ∃ a ∈ gather signed signs, a.Represents n := by
  unfold gather
  cases signed with
  | true => exact exists_ofPolarities hn
  | false =>
    apply exists_ofPolarities
    exact mem_map.mpr ⟨_, hn, abs_ofInt (hsigned rfl)⟩

variable {t : Target} {op : BinOp}

/-- Where the exact operator does not overflow, one of the signs of the result is right. -/
theorem exists_arith {type : IntType} {results : List Sign} (htwos : t.complement = .twos)
    (hx : t.InRange type x) (hy : t.InRange type y) (hfits : t.Fits type op x y)
    (hn : t.arith type op x y = .ok n) (ha : a.Represents x) (hb : b.Represents y)
    (hresults : arith type.signed op a b = .ok results) : ∃ c ∈ results, c.Represents n := by
  have htable := ofInt_mem_arith htwos hx hy hfits hn
  have hnrange := inRange_arith hn
  unfold arith at hresults
  split at hresults
  · cases hresults
  · cases hresults
    apply exists_gather (fun hunsigned => nonneg_of_inRange hunsigned hnrange)
    refine mem_flatMap.mpr ⟨_, represents_iff.mp ha, mem_flatMap.mpr ⟨_, ?_, htable⟩⟩
    split
    next hdivides =>
      -- A sign that stands for the divisor is not dropped, as the divisor is not zero.
      have hne := ne_zero_of_arith_ok hdivides hn
      simpa [hne] using represents_iff.mp hb
    next => exact represents_iff.mp hb

theorem mem_compare (hop : op.isRelational = true) (ha : a.Represents x) (hb : b.Represents y) :
    op.holds (some (Ord.compare x y)) ∈ compare op a b := by
  have htable : op.holds (some (Ord.compare x y)) ∈
      Polarity.compare op (Polarity.ofInt x) (Polarity.ofInt y) := by
    rw [Polarity.compare, if_pos hop]
    exact mem_map_of_mem (f := fun order => op.holds (some order)) (Polarity.compare_mem_orders x y)
  unfold compare outcomes
  rw [mem_filter, contains_iff_mem]
  refine ⟨by cases op.holds (some (Ord.compare x y)) <;> simp, ?_⟩
  exact mem_flatMap.mpr ⟨_, represents_iff.mp ha, mem_flatMap.mpr ⟨_, represents_iff.mp hb, htable⟩⟩

/-- A conversion covers what becomes of every number that the sign stands for. -/
theorem exists_cast (htwos : t.complement = .twos) (hx : t.InRange source x) (ha : a.Represents x) :
    ∃ c ∈ cast t source wanted a, c.Represents (t.reduce wanted x) := by
  unfold cast
  split
  next hcontains =>
    have hwanted : t.InRange wanted x := ⟨Int.le_trans hcontains.1 hx.1, Int.le_trans hx.2 hcontains.2⟩
    rw [t.reduce_of_inRange wanted hwanted]
    exact ⟨a, mem_singleton_self a, ha⟩
  next =>
    apply exists_ofPolarities
    refine mem_flatMap.mpr ⟨_, represents_iff.mp ha, ?_⟩
    have hrange := t.inRange_reduce wanted x
    by_cases hzero : x = 0
    · have hreduce := t.reduce_of_inRange wanted (t.inRange_zero wanted)
      simp [hzero, hreduce]
    · have hsign (hunsigned : ¬wanted.signed = true) : 0 ≤ t.reduce wanted x :=
        nonneg_of_inRange (by simpa using hunsigned) hrange
      rw [if_neg (by simpa using hzero)]
      split
      next =>
        split
        next => exact mem_all _
        next hunsigned => exact ofInt_mem_zero_pos (hsign hunsigned)
      next hwide =>
        have hne : t.reduce wanted x ≠ 0 :=
          reduce_ne_zero htwos (Nat.le_of_not_lt hwide) hx hzero
        split
        next =>
          simp only [mem_cons, ofInt_eq_neg, ofInt_eq_pos, not_mem_nil]
          omega
        next hunsigned =>
          have hnonneg := hsign hunsigned
          simp only [mem_singleton, ofInt_eq_pos]
          omega

end Sign

end CoreC
