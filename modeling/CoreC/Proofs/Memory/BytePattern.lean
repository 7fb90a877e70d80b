import CoreC.Memory.BytePattern

/-! # Exact byte patterns

A pattern whose bits are all known spells one number, its lowest byte first. On such
patterns every operation that memory uses is an operation on plain lists: cutting,
padding and overwriting never meet an unknown bit.
-/

namespace CoreC

open List PartialByte

namespace PartialByte

theorem eq_exact_of_isExact {byte : PartialByte} (hexact : byte.isExact = true) :
    ∃ value, byte = exact value := by
  cases byte with
  | uninitialized => simp [isExact] at hexact
  | bits value mask =>
    refine ⟨value, ?_⟩
    simp only [isExact, decide_eq_true_eq] at hexact
    rw [exact, hexact]

variable (value : UInt8)

@[simp] theorem isExact_exact : (exact value).isExact = true := rfl

@[simp] theorem isInitialized_exact : (exact value).isInitialized = true := rfl

@[simp] theorem orZero_exact : (exact value).orZero = exact value := rfl

@[simp] theorem unknownBits_exact : (exact value).unknownBits = [] := by
  change (range 8).filter (fun bit => !(0xff : UInt8).toNat.testBit bit) = []
  decide

@[simp] theorem known_exact : (exact value).known = value.toNat := by
  have hbound : value.toNat < 2 ^ 8 := value.toNat_lt
  change (value &&& 0xff).toNat = value.toNat
  rw [UInt8.toNat_and]
  change value.toNat &&& (2 ^ 8 - 1) = value.toNat
  rw [Nat.and_two_pow_sub_one_eq_mod, Nat.mod_eq_of_lt hbound]

end PartialByte

namespace BytePattern

@[simp] theorem length_ofNat (n length : Nat) : (ofNat n length).length = length := by
  induction length generalizing n with
  | zero => rfl
  | succ length ih => simp [ofNat, ih]

@[simp] theorem isExact_ofNat (n length : Nat) : (ofNat n length).isExact = true := by
  induction length generalizing n with
  | zero => rfl
  | succ length ih =>
    have hrest := ih (n / 256)
    simp only [isExact] at hrest ⊢
    simp [ofNat, hrest]

theorem isExact_cons {byte : PartialByte} {rest : BytePattern}
    (hexact : isExact (byte :: rest) = true) :
    (∃ value, byte = .exact value) ∧ rest.isExact = true := by
  simp only [isExact, all_cons, Bool.and_eq_true] at hexact
  exact ⟨eq_exact_of_isExact hexact.1, hexact.2⟩

variable {p : BytePattern} {length : Nat}

section

variable (hp : p.isExact = true)

include hp

theorem isExact_append {q : BytePattern} (hq : q.isExact = true) : isExact (p ++ q) = true := by
  simp only [isExact, all_append, Bool.and_eq_true] at hp hq ⊢
  exact ⟨hp, hq⟩

theorem isExact_take (n : Nat) : isExact (p.take n) = true := by
  simp only [isExact, all_eq_true] at hp ⊢
  exact fun byte hbyte => hp byte (mem_of_mem_take hbyte)

theorem isExact_drop (n : Nat) : isExact (p.drop n) = true := by
  simp only [isExact, all_eq_true] at hp ⊢
  exact fun byte hbyte => hp byte (mem_of_mem_drop hbyte)

theorem isInitialized_of_isExact : p.isInitialized = true := by
  simp only [isExact, isInitialized, all_eq_true] at hp ⊢
  intro byte hbyte
  obtain ⟨value, rfl⟩ := eq_exact_of_isExact (hp byte hbyte)
  rfl

theorem orZero_of_isExact : p.orZero = p := by
  simp only [isExact, all_eq_true] at hp
  refine (map_congr_left fun byte hbyte => ?_).trans (map_id p)
  obtain ⟨value, rfl⟩ := eq_exact_of_isExact (hp byte hbyte)
  rfl

theorem unknownBits_of_isExact : p.unknownBits = [] := by
  induction p with
  | nil => rfl
  | cons byte rest ih =>
    obtain ⟨⟨value, rfl⟩, hrest⟩ := isExact_cons hp
    simp [unknownBits, ih hrest]

end

theorem known_ofNat (n length : Nat) : known (ofNat n length) = n % 256 ^ length := by
  induction length generalizing n with
  | zero => simp [ofNat, known, Nat.mod_one]
  | succ length ih =>
    have hlow : n % 2 ^ 8 = n % 256 := rfl
    rw [ofNat, known, ih, known_exact, UInt8.toNat_ofNat', hlow,
      Nat.pow_succ', Nat.mod_mul (a := 256)]

/-- An exact pattern is the spelling of its own number. -/
theorem ofNat_known (hp : p.isExact = true) : ofNat p.known p.length = p := by
  induction p with
  | nil => rfl
  | cons byte rest ih =>
    obtain ⟨⟨value, rfl⟩, hrest⟩ := isExact_cons hp
    have hvalue : value.toNat < 256 := value.toNat_lt
    rw [length_cons, known, known_exact, ofNat,
      Nat.add_mul_div_left _ _ (by omega), Nat.div_eq_of_lt hvalue, Nat.zero_add, ih hrest]
    congr 2
    apply UInt8.toNat.inj
    rw [UInt8.toNat_ofNat']
    omega

theorem known_lt (hp : p.isExact = true) : p.known < 256 ^ p.length := by
  have hspelled := known_ofNat p.known p.length
  rw [ofNat_known hp] at hspelled
  rw [hspelled]
  exact Nat.mod_lt _ (Nat.pow_pos (by omega))

/-- The only number that an exact pattern stands for. -/
theorem enumerate_of_isExact (hp : p.isExact = true) (hlength : p.length ≤ maxLength) (limit : Nat) :
    p.enumerate limit = .ok [p.known] := by
  have hshort : ¬ maxLength < p.length := by omega
  simp [enumerate, isInitialized_of_isExact hp, hshort, unknownBits_of_isExact hp, scatter]

theorem resize_of_length (hlength : p.length = length) : p.resize length = p := by
  subst hlength
  simp [resize, zeros]

variable {offset : Nat}

theorem slice_eq_take_drop (hfits : offset + length ≤ p.length) :
    p.slice offset length = (p.drop offset).take length := by
  have hzeros : length - (p.drop offset).length = 0 := by
    rw [length_drop]
    omega
  rw [slice, resize, hzeros]
  simp [zeros]

variable {patch : BytePattern}

theorem splice_eq_append (hfits : offset + patch.length ≤ p.length) :
    p.splice offset patch = p.take offset ++ patch ++ p.drop (offset + patch.length) := by
  have hwhole : patch.take (p.length - offset) = patch := take_of_length_le (by omega)
  rw [splice, hwhole]

theorem isExact_splice (hp : p.isExact = true)
    (hpatch : patch.isExact = true) (hfits : offset + patch.length ≤ p.length) :
    (p.splice offset patch).isExact = true := by
  rw [splice_eq_append hfits]
  exact isExact_append (isExact_append (isExact_take hp _) hpatch) (isExact_drop hp _)

theorem length_splice
    (hfits : offset + patch.length ≤ p.length) : (p.splice offset patch).length = p.length := by
  rw [splice_eq_append hfits]
  simp only [length_append, length_take, length_drop]
  omega

@[simp] theorem length_zeros (n : Nat) : (zeros n).length = n := length_replicate

@[simp] theorem isExact_zeros (n : Nat) : (zeros n).isExact = true := by
  simp [zeros, isExact, all_replicate]

theorem ofNat_zero (length : Nat) : ofNat 0 length = zeros length := by
  induction length with
  | zero => rfl
  | succ length ih =>
    rw [ofNat, Nat.zero_div, ih]
    rfl

/-- The low bytes of a number and then those above them. -/
theorem ofNat_add (n low high : Nat) :
    ofNat n (low + high) = ofNat n low ++ ofNat (n / 256 ^ low) high := by
  induction low generalizing n with
  | zero => simp [ofNat]
  | succ low ih =>
    rw [Nat.succ_add, ofNat, ofNat, ih, Nat.div_div_eq_div_mul, ← Nat.pow_succ']
    rfl

/-- A number cut to some bytes has the same bytes. -/
theorem ofNat_mod (n length : Nat) : ofNat (n % 256 ^ length) length = ofNat n length := by
  have hspelled := ofNat_known (isExact_ofNat n length)
  rwa [known_ofNat, length_ofNat] at hspelled

theorem getElem?_ofNat {n index : Nat} (hindex : index < length) :
    (ofNat n length)[index]? = some (.exact (UInt8.ofNat (n / 256 ^ index))) := by
  induction length generalizing n index with
  | zero => omega
  | succ length ih =>
    cases index with
    | zero => simp [ofNat]
    | succ index =>
      rw [ofNat, getElem?_cons_succ, ih (by omega), Nat.div_div_eq_div_mul, ← Nat.pow_succ']

@[simp] theorem length_resize (p : BytePattern) (length : Nat) : (p.resize length).length = length := by
  simp only [resize, length_append, length_take, length_zeros]
  omega

theorem isExact_resize (hp : p.isExact = true) (length : Nat) : (p.resize length).isExact = true :=
  isExact_append (isExact_take hp _) (isExact_zeros _)

/-- A byte of a resized pattern is the byte that was there, or a zero. -/
theorem getElem?_resize (p : BytePattern) {index : Nat} (hindex : index < length) :
    (p.resize length)[index]? = some (p[index]?.getD (.exact 0)) := by
  rcases Nat.lt_or_ge index p.length with hinside | houtside
  · rw [resize, getElem?_append_left (by rw [length_take]; omega),
      getElem?_take_of_lt hindex, getElem?_eq_getElem hinside]
    rfl
  · rw [resize, getElem?_append_right (by rw [length_take]; omega), length_take,
      getElem?_eq_none houtside, zeros, getElem?_replicate_of_lt (by omega)]
    rfl

theorem ext_of_length {q : BytePattern} (hlength : p.length = q.length)
    (hbytes : ∀ index, index < q.length → p[index]? = q[index]?) : p = q := by
  refine ext_getElem? fun index => ?_
  rcases Nat.lt_or_ge index q.length with hinside | houtside
  · exact hbytes index hinside
  · rw [getElem?_eq_none houtside, getElem?_eq_none (by omega)]

/-- Zeros at the end of a pattern do not matter to its resizing. -/
theorem resize_append_zeros (p : BytePattern) (count length : Nat) :
    (p ++ zeros count).resize length = p.resize length := by
  refine ext_of_length (by simp) fun index hindex => ?_
  rw [length_resize] at hindex
  rw [getElem?_resize _ hindex, getElem?_resize _ hindex, getElem?_append]
  split
  · rfl
  next houtside =>
    rw [getElem?_eq_none (Nat.not_lt.mp houtside), zeros, getElem?_replicate]
    split <;> rfl

theorem take_resize (p : BytePattern) {whole : Nat} (hle : length ≤ whole) :
    (p.resize whole).take length = p.resize length := by
  refine ext_of_length (by simp [hle]) fun index hindex => ?_
  rw [length_resize] at hindex
  rw [getElem?_take_of_lt hindex, getElem?_resize _ (by omega), getElem?_resize _ hindex]

/-- The low bytes of the number that an exact pattern spells are the pattern's own. -/
theorem ofNat_known_take (hp : p.isExact = true) (hle : length ≤ p.length) :
    ofNat p.known length = p.take length := by
  have hspelled := ofNat_known hp
  obtain ⟨rest, hrest⟩ : ∃ rest, p.length = length + rest := ⟨p.length - length, by omega⟩
  rw [hrest, ofNat_add] at hspelled
  rw [← hspelled, take_left' (length_ofNat _ _)]
  rw [hspelled]

/-- Bytes never written count as zeros. -/
theorem orZero_uninitialized (written length : Nat) :
    ((uninitialized written).resize length).orZero = zeros length := by
  refine ext_of_length (by simp [orZero]) fun index hindex => ?_
  rw [length_zeros] at hindex
  rw [orZero, getElem?_map, getElem?_resize _ hindex, uninitialized, getElem?_replicate, zeros,
    getElem?_replicate_of_lt hindex]
  split <;> rfl

end BytePattern

end CoreC
