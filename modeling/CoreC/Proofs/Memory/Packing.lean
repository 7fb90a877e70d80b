import CoreC.Proofs.Memory.Operation
import Mathlib.Algebra.GroupWithZero.Nat
import Mathlib.Data.List.Induction
import Mathlib.Order.Bounds.Basic

/-! # Packing of members

What a struct is laid out as depends on its members only through their alignments and layouts.
Padding goes to the last unit before it, so it never moves a unit that was placed, and the bytes
of the units placed so far are the offset up to which they reach.
-/

namespace CoreC

open StorageUnit List Layout Resolver

variable {others : List StorageUnit} {unit : StorageUnit} {align : Nat}

/-! ## Padding -/

/-- Padding leads to the first multiple of the alignment. -/
theorem isLeast_padding (offset : Nat) (halign : 0 < align) :
    IsLeast {p | align ∣ p ∧ offset ≤ p} (offset + padding offset align) := by
  have hsplit := Nat.mod_add_div offset align
  have hmod := Nat.mod_lt offset halign
  have hreached : align ∣ offset + padding offset align := by
    rcases Nat.eq_zero_or_pos (offset % align) with hzero | hpos
    · rw [padding, hzero, Nat.sub_zero, Nat.mod_self, Nat.add_zero]
      exact Nat.dvd_of_mod_eq_zero hzero
    · rw [padding, Nat.mod_eq_of_lt (by omega)]
      exact ⟨offset / align + 1, by rw [Nat.mul_add]; omega⟩
  have hshort : padding offset align < align := Nat.mod_lt _ halign
  refine ⟨⟨hreached, by omega⟩, fun p ⟨hp, hle⟩ => ?_⟩
  -- two multiples less than one alignment apart are the same
  by_contra hlt
  have hdvd := Nat.dvd_sub hreached hp
  have hsmall := Nat.le_of_dvd (by omega) hdvd
  omega

theorem padding_zero (align : Nat) : padding 0 align = 0 := by simp [padding]

theorem padding_one (offset : Nat) : padding offset 1 = 0 := Nat.mod_one _

section PadLast

theorem padLast_append (units : List StorageUnit) (hothers : others ≠ []) (bytes : Nat) :
    padLast (units ++ others) bytes = units ++ padLast others bytes := by
  induction units with
  | nil => rfl
  | cons unit rest ih =>
    rw [cons_append, padLast, ih]
    · rfl
    · simp [hothers]

/-- Only the last unit changes, and only in its size. -/
theorem padLast_concat (units : List StorageUnit) (last : StorageUnit) (bytes : Nat) :
    padLast (units ++ [last]) bytes = units ++ [{ last with size := last.size + bytes }] :=
  padLast_append units (cons_ne_nil last []) bytes

variable (units : List StorageUnit) (bytes : Nat)

theorem length_padLast : (padLast units bytes).length = units.length := by
  rcases units.eq_nil_or_concat with rfl | ⟨before, last, rfl⟩
  · rfl
  · simp [padLast_concat]

variable {units}

theorem total_padLast (hunits : units ≠ []) :
    total (padLast units bytes) = total units + bytes := by
  rcases units.eq_nil_or_concat with rfl | ⟨before, last, rfl⟩
  · exact absurd rfl hunits
  · rw [concat_eq_append, padLast_concat, total_append, total_append, Nat.add_assoc]
    rfl

theorem exists_of_mem_padLast (hunit : unit ∈ padLast units bytes) :
    ∃ old ∈ units, old.scalar = unit.scalar ∧ old.size ≤ unit.size := by
  rcases units.eq_nil_or_concat with rfl | ⟨before, last, rfl⟩
  · cases hunit
  · rw [concat_eq_append, padLast_concat, mem_append, mem_singleton] at hunit
    rcases hunit with hmem | rfl
    · exact ⟨unit, by simp [hmem], rfl, Nat.le_refl _⟩
    · exact ⟨last, by simp, rfl, Nat.le_add_right _ _⟩

end PadLast

/-! ## Units on multiples of their sizes -/

/-- From the offset on, every unit starts at a multiple of the size of what it holds. -/
def OnMultiples (t : Target) : Nat → List StorageUnit → Prop
  | _, [] => True
  | offset, unit :: rest => unit.scalar.size t ∣ offset ∧ OnMultiples t (offset + unit.size) rest

section OnMultiples

variable {t : Target} {offset : Nat} {units : List StorageUnit}

theorem onMultiples_append : OnMultiples t offset (units ++ others) ↔
    OnMultiples t offset units ∧ OnMultiples t (offset + total units) others := by
  induction units generalizing offset with
  | nil => simp [OnMultiples, total]
  | cons unit rest ih => simp [OnMultiples, ih, total, and_assoc, Nat.add_assoc]

theorem OnMultiples.dvd_take (hunits : OnMultiples t 0 units) (i : Nat) (hi : i < units.length) :
    units[i].scalar.size t ∣ total (units.take i) := by
  rw [← take_append_drop i units, drop_eq_getElem_cons hi, onMultiples_append, Nat.zero_add] at hunits
  exact hunits.2.1

theorem OnMultiples.padLast (hunits : OnMultiples t offset units) (bytes : Nat) :
    OnMultiples t offset (padLast units bytes) := by
  rcases units.eq_nil_or_concat with rfl | ⟨before, last, rfl⟩
  · trivial
  · rw [concat_eq_append, onMultiples_append] at hunits
    rw [concat_eq_append, padLast_concat, onMultiples_append]
    exact ⟨hunits.1, hunits.2.1, trivial⟩

theorem OnMultiples.shift (hunits : OnMultiples t offset units) {moved : Nat}
    (hdivides : ∀ unit ∈ units, unit.scalar.size t ∣ align) (hmoved : align ∣ moved) :
    OnMultiples t (moved + offset) units := by
  induction units generalizing offset with
  | nil => trivial
  | cons unit rest ih =>
    refine ⟨(Nat.dvd_add_right (Nat.dvd_trans (hdivides unit mem_cons_self) hmoved)).mpr hunits.1, ?_⟩
    rw [Nat.add_assoc]
    exact ih hunits.2 fun other hother => hdivides other (mem_cons_of_mem _ hother)

end OnMultiples

/-- Units that can be placed at every multiple of the alignment, one object after the other. -/
structure Aligned (t : Target) (align : Nat) (units : List StorageUnit) : Prop where
  starts : OnMultiples t 0 units
  divides : ∀ unit ∈ units, unit.scalar.size t ∣ align
  total : align ∣ total units

theorem Aligned.flatten {t : Target} {layout : Layout} (haligned : Aligned t align layout.units) :
    Aligned t align layout.flatten := by
  obtain ⟨units, count⟩ := layout
  have hdivides n unit (hunit : unit ∈ (Layout.mk units n).flatten) :=
    haligned.divides unit (Layout.mem_units_of_mem_flatten ⟨units, n⟩ hunit)
  have hstarts : OnMultiples t 0 (Layout.mk units count).flatten := by
    induction count with
    | zero => trivial
    | succ count ih =>
      rw [Layout.flatten, replicate_succ, flatten_cons, onMultiples_append, Nat.zero_add]
      exact ⟨haligned.starts, OnMultiples.shift (ih haligned) (hdivides count) haligned.total⟩
  refine ⟨hstarts, hdivides count, ?_⟩
  rw [total_flatten]
  exact Nat.dvd_mul_right_of_dvd haligned.total count

/-! ## Placing members -/

/-- What placing a member needs to know of it. -/
structure Measure where
  align : Nat
  layout : Layout

/-- Units of some members, without padding. -/
def Measure.units (ms : List Measure) : Nat := (ms.map (·.layout.flatten.length)).sum

/-- The next member after those already placed. -/
def put (placed : Placed) (m : Measure) : Placed where
  units := padLast placed.units (padding placed.offset m.align) ++ m.layout.flatten
  offset := placed.offset + padding placed.offset m.align + m.layout.size
  widest := max placed.widest m.align

def pack (ms : List Measure) : Placed := ms.foldl put ⟨[], 0, 1⟩

theorem pack_concat (ms : List Measure) (m : Measure) : pack (ms ++ [m]) = put (pack ms) m := by
  simp [pack]

theorem total_padLast_pack (ms : List Measure) (align : Nat) :
    total (padLast (pack ms).units (padding (pack ms).offset align)) =
      (pack ms).offset + padding (pack ms).offset align := by
  -- padding is lost only where nothing was placed, but there it is none
  have hgap units offset (htotal : total units = offset) align :
      total (padLast units (padding offset align)) = offset + padding offset align := by
    by_cases hunits : units = []
    · subst hunits htotal
      rw [show total [] = 0 from rfl, padding_zero]
      rfl
    · rw [total_padLast _ hunits, htotal]
  refine hgap _ _ ?_ align
  induction ms using reverseRecOn with
  | nil => rfl
  | append_singleton ms m ih =>
    rw [pack_concat, put, total_append, hgap _ _ ih, total_flatten]

variable {ms : List Measure}

/-- Every unit is one of a member, maybe padded. -/
theorem exists_of_mem_pack (hunit : unit ∈ (pack ms).units) :
    ∃ m ∈ ms, ∃ old ∈ m.layout.flatten, old.scalar = unit.scalar ∧ old.size ≤ unit.size := by
  induction ms using reverseRecOn generalizing unit with
  | nil => cases hunit
  | append_singleton ms m ih =>
    rw [pack_concat] at hunit
    rcases mem_append.mp hunit with hmem | hmem
    · obtain ⟨padded, hpadded, hscalar, hle⟩ := exists_of_mem_padLast _ hmem
      obtain ⟨other, hother, old, hold, hscalar', hle'⟩ := ih hpadded
      exact ⟨other, mem_append_left _ hother, old, hold, hscalar'.trans hscalar, Nat.le_trans hle' hle⟩
    · exact ⟨m, by simp, unit, hmem, rfl, Nat.le_refl _⟩

theorem length_pack (ms : List Measure) : (pack ms).units.length = Measure.units ms := by
  induction ms using reverseRecOn with
  | nil => rfl
  | append_singleton ms m ih => simp [pack_concat, put, length_padLast, ih, Measure.units]

/-- Offset of the first unit of a member. -/
def startOf (units : List StorageUnit) (ms : List Measure) (k : Nat) : Nat :=
  total (units.take (Measure.units (ms.take k)))

/-- End of the members before a given one. -/
def endBefore (units : List StorageUnit) (ms : List Measure) : Nat → Nat
  | 0 => 0
  | k + 1 => startOf units ms k + (ms[k]?.map (·.layout.size)).getD 0

/-- Units in which each member starts at the first multiple of its alignment that is not before
the end of the member before it, and which end at the first multiple of `align`. -/
structure Packed (align : Nat) (ms : List Measure) (units : List StorageUnit) : Prop where
  start : ∀ k (hk : k < ms.length),
    IsLeast {p | ms[k].align ∣ p ∧ endBefore units ms k ≤ p} (startOf units ms k)
  total : IsLeast {p | align ∣ p ∧ endBefore units ms ms.length ≤ p} (total units)

/-- The units of the members before one that has units are not changed by what is placed later. -/
theorem take_padLast_pack (hms : ∀ m ∈ ms, m.layout.flatten ≠ []) {k : Nat}
    (hk : k < ms.length) (bytes : Nat) :
    (padLast (pack ms).units bytes).take (Measure.units (ms.take k)) =
      padLast (pack (ms.take k)).units (padding (pack (ms.take k)).offset ms[k].align) := by
  induction ms using reverseRecOn generalizing bytes with
  | nil => cases hk
  | append_singleton ms m ih =>
    have hm := hms m (by simp)
    rw [pack_concat, put, padLast_append _ hm]
    rcases Nat.lt_or_ge k ms.length with hlt | hge
    · have hcount : Measure.units (ms.take k) ≤
        (padLast (pack ms).units (padding (pack ms).offset m.align)).length := by
        have hsum := congrArg sum (take_append_drop k (ms.map (·.layout.flatten.length)))
        rw [sum_append] at hsum
        rw [length_padLast, length_pack, Measure.units, Measure.units, map_take]
        omega
      rw [take_append_of_le_length (Nat.le_of_lt hlt), take_append_of_le_length hcount,
        ih (fun m hm => hms m (mem_append_left _ hm)) hlt]
      simp [hlt]
    · obtain rfl : k = ms.length := by simp at hk; omega
      rw [take_left, ← length_pack, take_left' (length_padLast ..)]
      simp

/-- Of powers of two, the greater is a multiple of the lesser. -/
theorem dvd_max_of_isPowerOfTwo {a b : Nat} (ha : a.isPowerOfTwo) (hb : b.isPowerOfTwo) :
    a ∣ max a b ∧ b ∣ max a b ∧ (max a b).isPowerOfTwo := by
  obtain ⟨i, rfl⟩ := ha
  obtain ⟨j, rfl⟩ := hb
  rcases Nat.le_total i j with hle | hle
  · rw [Nat.max_eq_right (Nat.pow_le_pow_right Nat.two_pos hle)]
    exact ⟨Nat.pow_dvd_pow 2 hle, Nat.dvd_refl _, j, rfl⟩
  · rw [Nat.max_eq_left (Nat.pow_le_pow_right Nat.two_pos hle)]
    exact ⟨Nat.dvd_refl _, Nat.pow_dvd_pow 2 hle, i, rfl⟩

theorem dvd_widest_pack (hms : ∀ m ∈ ms, m.align.isPowerOfTwo) :
    (pack ms).widest.isPowerOfTwo ∧ ∀ m ∈ ms, m.align ∣ (pack ms).widest := by
  induction ms using reverseRecOn with
  | nil => exact ⟨⟨0, rfl⟩, by simp⟩
  | append_singleton ms m ih =>
    obtain ⟨hpow, hdvd⟩ := ih fun other hother => hms other (mem_append_left _ hother)
    obtain ⟨hold, hnew, hmax⟩ := dvd_max_of_isPowerOfTwo hpow (hms m (by simp))
    rw [pack_concat]
    refine ⟨hmax, fun other hother => ?_⟩
    rcases mem_append.mp hother with hmem | hmem
    · exact Nat.dvd_trans (hdvd other hmem) hold
    · rw [mem_singleton.mp hmem]
      exact hnew

theorem packed_pack (hms : ∀ m ∈ ms, m.align.isPowerOfTwo ∧ m.layout.flatten ≠ []) :
    Packed (pack ms).widest ms (padLast (pack ms).units (padding (pack ms).offset (pack ms).widest)) := by
  generalize hunits : padLast (pack ms).units (padding (pack ms).offset (pack ms).widest) = units
  have hstart k (hk : k < ms.length) : startOf units ms k =
      (pack (ms.take k)).offset + padding (pack (ms.take k)).offset ms[k].align := by
    rw [startOf, ← hunits, take_padLast_pack (fun m hm => (hms m hm).2) hk, total_padLast_pack]
  have hend k (hk : k ≤ ms.length) : endBefore units ms k = (pack (ms.take k)).offset := by
    cases k with
    | zero => rfl
    | succ k =>
      rw [endBefore, hstart k hk, take_succ_eq_append_getElem hk, pack_concat, put,
        getElem?_eq_getElem hk]
      rfl
  refine ⟨fun k hk => ?_, ?_⟩
  · rw [hend k (Nat.le_of_lt hk), hstart k hk]
    exact isLeast_padding _ (Nat.pos_of_isPowerOfTwo (hms _ (getElem_mem hk)).1)
  · rw [hend _ (Nat.le_refl _), take_length, ← hunits, total_padLast_pack]
    exact isLeast_padding _ (Nat.pos_of_isPowerOfTwo (dvd_widest_pack fun m hm => (hms m hm).1).1)

/-- Where alignments are powers of two, the units of a struct are aligned to the widest one. -/
theorem aligned_pack {t : Target}
    (hms : ∀ m ∈ ms, m.align.isPowerOfTwo ∧ Aligned t m.align m.layout.units) :
    Aligned t (pack ms).widest (padLast (pack ms).units (padding (pack ms).offset (pack ms).widest)) := by
  obtain ⟨hpow, hdvd⟩ := dvd_widest_pack fun m hm => (hms m hm).1
  have hstarts : OnMultiples t 0 (pack ms).units := by
    clear hpow hdvd
    induction ms using reverseRecOn with
    | nil => trivial
    | append_singleton ms m ih =>
      have hstarts := ih fun other hother => hms other (mem_append_left _ hother)
      obtain ⟨halign, haligned⟩ := hms m (by simp)
      have hreached := (isLeast_padding (pack ms).offset (Nat.pos_of_isPowerOfTwo halign)).1.1
      rw [pack_concat, put, onMultiples_append, total_padLast_pack, Nat.zero_add]
      exact ⟨hstarts.padLast _, haligned.flatten.starts.shift haligned.flatten.divides hreached⟩
  refine ⟨hstarts.padLast _, fun unit hunit => ?_, ?_⟩
  · obtain ⟨padded, hpadded, hscalar, -⟩ := exists_of_mem_padLast _ hunit
    obtain ⟨m, hm, old, hold, hscalar', -⟩ := exists_of_mem_pack hpadded
    rw [← hscalar, ← hscalar']
    exact Nat.dvd_trans ((hms m hm).2.divides old (m.layout.mem_units_of_mem_flatten hold)) (hdvd m hm)
  · rw [total_padLast_pack]
    exact (isLeast_padding _ (Nat.pos_of_isPowerOfTwo hpow)).1.1

/-- Without alignment the members stand one after the other. -/
theorem offset_pack (hms : ∀ m ∈ ms, m.align = 1) :
    (pack ms).widest = 1 ∧ (pack ms).offset = (ms.map (·.layout.size)).sum := by
  induction ms using reverseRecOn with
  | nil => exact ⟨rfl, rfl⟩
  | append_singleton ms m ih =>
    obtain ⟨hwidest, hoffset⟩ := ih fun other hother => hms other (mem_append_left _ hother)
    rw [pack_concat, put, hwidest, hms m (by simp), padding_one, hoffset]
    simp

end CoreC
