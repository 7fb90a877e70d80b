import CoreC.Proofs.Memory.BytePattern
import Mathlib.Data.List.Nodup
import Mathlib.Data.Nat.Bitwise

/-! # The numbers of a byte pattern

A pattern knows some of its bits. The numbers that it stands for have these bits, and any others
at the free positions. Spreading the bits of a counter over the free positions meets each of
them once: the counter can be read off the number again.
-/

namespace CoreC

open List

namespace PartialByte

/-- The bit at a position, if it is known. -/
def bit? : PartialByte → Nat → Option Bool
  | .uninitialized, _ => none
  | .bits value mask, position =>
    if mask.toNat.testBit position then some (value.toNat.testBit position) else none

theorem testBit_known (byte : PartialByte) (position : Nat) :
    byte.known.testBit position = (byte.bit? position).getD false := by
  cases byte with
  | uninitialized => simp [known, bit?]
  | bits value mask =>
    rw [known, UInt8.toNat_and, Nat.testBit_and, bit?]
    split <;> simp_all

theorem mem_unknownBits (byte : PartialByte) (position : Nat) :
    position ∈ byte.unknownBits ↔ position < 8 ∧ byte.bit? position = none := by
  cases byte <;> simp [unknownBits, bit?]

end PartialByte

namespace BytePattern

/-- The bit at a position, counted from the lowest byte on, if it is known. -/
def bit? : BytePattern → Nat → Option Bool
  | [], _ => none
  | byte :: rest, position => if position < 8 then byte.bit? position else bit? rest (position - 8)

/-- The number has every bit that the pattern knows. -/
def Agrees (p : BytePattern) (n : Nat) : Prop :=
  ∀ position bit, p.bit? position = some bit → n.testBit position = bit

variable {p : BytePattern} {positions : List Nat} {base n : Nat}

theorem testBit_known (p : BytePattern) (position : Nat) :
    p.known.testBit position = (p.bit? position).getD false := by
  induction p generalizing position with
  | nil => simp [known, bit?]
  | cons byte rest ih =>
    have hbyte : byte.known < 2 ^ 8 := by
      cases byte with
      | uninitialized => decide
      | bits value mask => exact (value &&& mask).toNat_lt
    rw [known, Nat.add_comm, show 256 = 2 ^ 8 from rfl, Nat.testBit_two_pow_mul_add _ hbyte, bit?, ih,
      PartialByte.testBit_known]
    split <;> rfl

theorem mem_unknownBits (p : BytePattern) (position : Nat) :
    position ∈ p.unknownBits ↔ position < 8 * p.length ∧ p.bit? position = none := by
  induction p generalizing position with
  | nil => simp [unknownBits]
  | cons byte rest ih =>
    have hrest : (∃ later ∈ unknownBits rest, 8 + later = position) ↔
        8 ≤ position ∧ position - 8 ∈ unknownBits rest := by
      constructor
      · rintro ⟨later, hlater, rfl⟩
        simpa using hlater
      · rintro ⟨hle, hmem⟩
        exact ⟨_, hmem, by omega⟩
    rw [unknownBits, mem_append, PartialByte.mem_unknownBits, mem_map, hrest, ih, bit?, length_cons]
    split <;> grind

theorem lt_of_bit? {position : Nat} {bit : Bool} (hbit : p.bit? position = some bit) :
    position < 8 * p.length := by
  induction p generalizing position with
  | nil => cases hbit
  | cons byte rest ih =>
    rw [bit?] at hbit
    rw [length_cons]
    split at hbit
    · omega
    · have hlt := ih hbit
      omega

theorem nodup_unknownBits (p : BytePattern) : p.unknownBits.Nodup := by
  induction p with
  | nil => exact nodup_nil
  | cons byte rest ih =>
    have hbyte : byte.unknownBits.Nodup := by
      cases byte with
      | uninitialized => exact nodup_range
      | bits value mask => exact nodup_range.filter _
    refine nodup_append.mpr ⟨hbyte, ih.map fun _ _ => Nat.add_left_cancel, ?_⟩
    rintro low hlow high hhigh rfl
    obtain ⟨later, -, hsame⟩ := mem_map.mp hhigh
    have hlt := ((byte.mem_unknownBits low).mp hlow).1
    omega

theorem length_unknownBits (p : BytePattern) : p.unknownBits.length = p.unknownCount := by
  induction p with
  | nil => rfl
  | cons byte rest ih => simp [unknownBits, unknownCount, ih]

/-- The numbers of a pattern differ from its known bits at the free positions only. -/
theorem agrees_iff : n < 2 ^ (8 * p.length) ∧ p.Agrees n ↔
    ∀ position, position ∉ p.unknownBits → n.testBit position = p.known.testBit position := by
  simp only [mem_unknownBits, not_and, testBit_known]
  constructor
  · rintro ⟨hlt, hagrees⟩ position hknown
    cases hbit : p.bit? position with
    | some bit => exact hagrees position bit hbit
    | none =>
      have hle : 8 * p.length ≤ position := Nat.le_of_not_lt fun hinside => hknown hinside hbit
      exact Nat.testBit_lt_two_pow (Nat.lt_of_lt_of_le hlt (Nat.pow_le_pow_right (by decide) hle))
  · intro hbits
    refine ⟨Nat.lt_pow_two_of_testBit n fun position hle => ?_, fun position bit hbit => ?_⟩
    · rw [hbits position fun hlt => absurd hlt (Nat.not_lt.mpr hle)]
      cases hbit : p.bit? position with
      | none => rfl
      | some bit => exact absurd (lt_of_bit? hbit) (Nat.not_lt.mpr hle)
    · rw [hbits position fun _ => by simp [hbit], hbit]
      rfl

/-! ## Spreading bits -/

/-- Adding a bit where there is none changes no other. -/
theorem testBit_add_bit {position : Nat} (hclear : base.testBit position = false) (choice other : Nat) :
    (base + choice % 2 * 2 ^ position).testBit other =
      if other = position then choice.testBit 0 else base.testBit other := by
  induction position generalizing base other with
  | zero =>
    have heven : base % 2 = 0 := by simpa using hclear
    cases other with
    | zero =>
      simp only [Nat.testBit_zero, Nat.pow_zero, Nat.mul_one, ↓reduceIte]
      congr 2
      omega
    | succ other =>
      rw [Nat.testBit_add_one, Nat.testBit_add_one, if_neg (Nat.succ_ne_zero other)]
      congr 1
      omega
  | succ position ih =>
    rw [Nat.testBit_add_one] at hclear
    rw [Nat.pow_succ, ← Nat.mul_assoc]
    cases other with
    | zero =>
      simp only [Nat.testBit_zero, Nat.add_mul_mod_self_right, if_neg (Nat.succ_ne_zero position).symm]
    | succ other =>
      rw [Nat.testBit_add_one, Nat.add_mul_div_right _ _ (by decide), ih hclear, Nat.testBit_add_one]
      simp

section Spread

variable (hnodup : positions.Nodup) (hclear : ∀ position ∈ positions, base.testBit position = false)
include hnodup hclear

/-- At the free positions stand the bits of the counter, in order. -/
theorem testBit_add_scatter (choice position : Nat) :
    (base + scatter positions choice).testBit position =
      if position ∈ positions then choice.testBit (positions.idxOf position) else base.testBit position := by
  induction positions generalizing base choice with
  | nil => rfl
  | cons first rest ih =>
    obtain ⟨hfirst, hrest⟩ := nodup_cons.mp hnodup
    have hbit := testBit_add_bit (hclear first mem_cons_self) choice
    rw [scatter, ← Nat.add_assoc, ih hrest, Nat.testBit_div_two, hbit, idxOf_cons]
    · by_cases hsame : position = first
      · simp [hsame, hfirst]
      · simp [hsame, beq_false_of_ne (Ne.symm hsame)]
    · intro later hlater
      rw [hbit, if_neg (by rintro rfl; exact hfirst hlater)]
      exact hclear later (mem_cons_of_mem _ hlater)

/-- Any bits at the free positions are spread from some counter. -/
theorem exists_scatter (hother : ∀ position, position ∉ positions → n.testBit position = base.testBit position) :
    ∃ choice < 2 ^ positions.length, base + scatter positions choice = n := by
  refine ⟨Nat.ofBits fun index : Fin positions.length => n.testBit positions[index], Nat.ofBits_lt_two_pow _, ?_⟩
  refine Nat.eq_of_testBit_eq fun position => ?_
  rw [testBit_add_scatter hnodup hclear]
  split
  next hmem => simp [Nat.testBit_ofBits_lt _ _ (idxOf_lt_length_iff.mpr hmem)]
  next hmem => exact (hother position hmem).symm

/-- The counter can be read off the bits that were spread. -/
theorem scatter_injOn {a b : Nat} (ha : a < 2 ^ positions.length) (hb : b < 2 ^ positions.length)
    (hsame : base + scatter positions a = base + scatter positions b) : a = b := by
  refine Nat.eq_of_testBit_eq fun index => ?_
  rcases Nat.lt_or_ge index positions.length with hlt | hge
  · have hbits := congrArg (·.testBit positions[index]) hsame
    simpa [testBit_add_scatter hnodup hclear, hnodup.idxOf_getElem] using hbits
  · have hhigh := Nat.pow_le_pow_right (show 0 < 2 by decide) hge
    rw [Nat.testBit_lt_two_pow (by omega), Nat.testBit_lt_two_pow (by omega)]

end Spread

theorem clear_unknownBits (p : BytePattern) : ∀ position ∈ p.unknownBits, p.known.testBit position = false := by
  intro position hposition
  rw [testBit_known, ((p.mem_unknownBits position).mp hposition).2]
  rfl

/-- The numbers of a pattern, in the order of the counter. -/
def numbers (p : BytePattern) : List Nat :=
  (range (2 ^ p.unknownBits.length)).map fun choice => p.known + scatter p.unknownBits choice

theorem nodup_numbers (p : BytePattern) : p.numbers.Nodup := by
  refine Nodup.map_on (fun a ha b hb => ?_) nodup_range
  exact scatter_injOn p.nodup_unknownBits p.clear_unknownBits (mem_range.mp ha) (mem_range.mp hb)

theorem mem_numbers : n ∈ p.numbers ↔ n < 2 ^ (8 * p.length) ∧ p.Agrees n := by
  rw [agrees_iff, numbers, mem_map]
  constructor
  · rintro ⟨choice, -, rfl⟩ position hknown
    rw [testBit_add_scatter p.nodup_unknownBits p.clear_unknownBits, if_neg hknown]
  · intro hother
    obtain ⟨choice, hlt, heq⟩ := exists_scatter p.nodup_unknownBits p.clear_unknownBits hother
    exact ⟨choice, mem_range.mpr hlt, heq⟩

theorem enumerate_eq (p : BytePattern) (limit : Nat) : p.enumerate limit =
      if p.isInitialized = false then .error (.uninitialized .bytePattern)
      else if 16 < p.length then .error (.unsupported .widePattern)
      else if limit < p.unknownCount then .error (.unsupported (.unknownBits p.unknownCount))
      else .ok p.numbers := by
  simp only [enumerate, numbers, maxLength, length_unknownBits, Bool.not_eq_true']

/-- **Enumeration is exact.** Of a written pattern of at most 16 bytes, with no more unknown bits
than the limit, all numbers are listed that have its known bits and no more bytes, each once. Any
other pattern is refused. An exact pattern stands for the number that it is read as, and the
bytes of a number are read as the number, cut to so many bytes. -/
theorem enumerate_exact (p : BytePattern) (limit : Nat) :
    (p.isInitialized = true → p.length ≤ 16 → p.unknownCount ≤ limit →
      ∃ numbers, p.enumerate limit = .ok numbers ∧ numbers.length = 2 ^ p.unknownCount ∧ numbers.Nodup ∧
        ∀ n, n ∈ numbers ↔ n < 2 ^ (8 * p.length) ∧ p.Agrees n) ∧
    (limit < p.unknownCount ∨ p.isInitialized = false ∨ 16 < p.length →
      ∃ fault, p.enumerate limit = .error fault) ∧
    (p.isExact = true → p.length ≤ 16 → ∃ n, p.toNat? = some n ∧ p.enumerate limit = .ok [n]) ∧
    ∀ n length, length ≤ 16 → (ofNat n length).toNat? = some (n % 2 ^ (8 * length)) := by
  refine ⟨fun hinit hlength hcount => ?_, fun hrefused => ?_, fun hexact hlength => ?_, fun n length hlength => ?_⟩
  · refine ⟨p.numbers, ?_, by simp [numbers, length_unknownBits], p.nodup_numbers, fun n => mem_numbers⟩
    rw [enumerate_eq, if_neg (by simp [hinit]), if_neg (by omega), if_neg (by omega)]
  · rw [enumerate_eq]
    repeat' split
    · exact ⟨_, rfl⟩
    · exact ⟨_, rfl⟩
    · exact ⟨_, rfl⟩
    · grind
  · exact ⟨p.known, by simp [toNat?, hexact, maxLength, hlength], enumerate_of_isExact hexact hlength limit⟩
  · simp [toNat?, maxLength, hlength, known_ofNat, Nat.pow_mul]

/-- Two bytes with three unknown bits, one of them in the upper byte. -/
def threeOpen : BytePattern := [.bits 0x50 0xfa, .bits 0x7f 0x7f]

/-- The eight numbers of two bytes with three unknown bits: 0x7f50 with any of the bits 0, 2 and 15. -/
theorem threeOpen_enumerated :
    threeOpen.enumerate 3 = .ok [0x7f50, 0x7f51, 0x7f54, 0x7f55, 0xff50, 0xff51, 0xff54, 0xff55] ∧
      threeOpen.Agrees 0xff54 ∧ ∃ fault, threeOpen.enumerate 2 = .error fault := by
  have hlisted : threeOpen.enumerate 3 = .ok [0x7f50, 0x7f51, 0x7f54, 0x7f55, 0xff50, 0xff51, 0xff54, 0xff55] := by
    rfl
  obtain ⟨numbers, hnumbers, -, -, hmem⟩ := (enumerate_exact threeOpen 3).1 rfl (by decide) (by decide)
  cases hlisted.symm.trans hnumbers
  exact ⟨rfl, ((hmem 0xff54).mp (by decide)).2, (enumerate_exact threeOpen 2).2.1 (.inl (by decide))⟩

end BytePattern

end CoreC
