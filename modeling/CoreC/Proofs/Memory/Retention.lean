import CoreC.Proofs.Domain.IntegerPattern
import CoreC.Proofs.Memory.Operation
import CoreC.Proofs.Number.Single

/-! # What a unit keeps of its bytes

A unit holds a value of its class, not the bytes that were put into it. Packing bytes into a
value and spelling the value out again keeps as many low bytes as the class has room for and
makes zeros of the others. A `float` that is a signaling NaN comes back quiet.
-/

namespace CoreC

open BytePattern List Option Double PartialByte Scalar

variable {word index : Nat}

/-- Bytes that a value of the class has room for. -/
def Scalar.kept (t : Target) : Scalar → Nat
  | .int type => t.intWidth type.rank
  | .float .float => 4
  | .float _ => 8
  | .pointer _ => t.wordWidth
  | .function => 0

/-- Bytes of the value of the class that some bytes are packed into. -/
def Scalar.settle (t : Target) (scalar : Scalar) (bytes : BytePattern) : BytePattern :=
  let low := bytes.resize (scalar.kept t)
  if scalar = .float .float ∧ Signaling low.known then .ofNat (low.known + 2 ^ 22) 4 else low

namespace StorageUnit

/-- Bytes that a unit shows after some bytes were packed into its value. -/
def shows (t : Target) (unit : StorageUnit) (bytes : BytePattern) : BytePattern :=
  (unit.scalar.settle t bytes).resize unit.size

/-- The unit shows the bytes that were packed into its value: it has room for all of them but
zeros, and they are not a signaling NaN. -/
def GivesBack (t : Target) (unit : StorageUnit) (bytes : BytePattern) : Prop :=
  (∀ byte ∈ bytes.drop (unit.scalar.kept t), byte = .exact 0) ∧
    (unit.scalar = .float .float → ¬Signaling (bytes.resize 4).known)

instance (t : Target) (unit : StorageUnit) (bytes : BytePattern) :
    Decidable (unit.GivesBack t bytes) := inferInstanceAs (Decidable (_ ∧ _))

variable {t : Target} {unit : StorageUnit} {bytes : BytePattern}

@[simp] theorem length_shows : (unit.shows t bytes).length = unit.size := length_resize _ _

theorem isExact_shows (hbytes : bytes.isExact = true) : (unit.shows t bytes).isExact = true := by
  refine isExact_resize ?_ _
  unfold settle
  dsimp only
  split
  · exact isExact_ofNat _ _
  · exact isExact_resize hbytes _

theorem exact_ofNat_eq_iff {a b : Nat} :
    exact (UInt8.ofNat a) = .exact (UInt8.ofNat b) ↔ a % 256 = b % 256 := by
  rw [exact, exact, bits.injEq, and_iff_left rfl, ← UInt8.toNat_inj,
    UInt8.toNat_ofNat', UInt8.toNat_ofNat']

/-- The third byte of a signaling NaN is not zero, and setting the quiet bit changes it. -/
theorem third_byte_signaling (hsignaling : Signaling word) : (ofNat word 4)[2]? ≠ some (.exact 0) ∧
      (ofNat (word + 2 ^ 22) 4)[2]? ≠ (ofNat word 4)[2]? := by
  obtain ⟨hinfinite, hquiet⟩ := hsignaling
  rw [single_infinity] at hinfinite hquiet
  have hindex : 2 < 4 := by omega
  have hzero : exact 0 = .exact (UInt8.ofNat 0) := rfl
  rw [getElem?_ofNat hindex, getElem?_ofNat hindex, hzero, ne_eq, ne_eq,
    some.injEq, some.injEq, exact_ofNat_eq_iff, exact_ofNat_eq_iff]
  omega

/-- Setting the quiet bit changes no other byte of a signaling NaN. -/
theorem getElem?_quieted (hsignaling : Signaling word) (hindex : index < 4) (hthird : index ≠ 2) :
    (ofNat (word + 2 ^ 22) 4)[index]? = (ofNat word 4)[index]? := by
  obtain ⟨hinfinite, hquiet⟩ := hsignaling
  rw [single_infinity] at hinfinite hquiet
  rw [getElem?_ofNat hindex, getElem?_ofNat hindex, some.injEq, exact_ofNat_eq_iff]
  match index, hindex with
  | 0, _ => omega
  | 1, _ => omega
  | 3, _ => omega

/-- Where a zero was put in, a zero is shown. -/
theorem getElem?_shows_of_zero (hindex : index < unit.size)
    (hzero : bytes[index]? = some (.exact 0)) (hbytes : bytes.isExact = true) :
    (unit.shows t bytes)[index]? = some (.exact 0) := by
  have hlow : (bytes.resize (unit.scalar.kept t))[index]?.getD (.exact 0) = .exact 0 := by
    rcases Nat.lt_or_ge index (unit.scalar.kept t) with hkept | hpast
    · rw [getElem?_resize _ hkept, hzero]
      rfl
    · rw [getElem?_eq_none (by rw [length_resize]; exact hpast)]
      rfl
  rw [shows, getElem?_resize _ hindex]
  unfold settle
  dsimp only
  split
  next hsignaling =>
    obtain ⟨hfloat, hsignaling⟩ := hsignaling
    have hkept : unit.scalar.kept t = 4 := by rw [hfloat]; rfl
    have hexact := isExact_resize hbytes 4
    have hspelled := ofNat_known hexact
    rw [length_resize] at hspelled
    rw [hkept] at hsignaling hlow ⊢
    rcases Nat.lt_or_ge index 4 with hfour | hpast
    · have hthird : index ≠ 2 := by
        rintro rfl
        have hnonzero := (third_byte_signaling hsignaling).1
        rw [hspelled, getElem?_resize _ hfour, hzero] at hnonzero
        exact hnonzero rfl
      rw [getElem?_quieted hsignaling hfour hthird, hspelled, hlow]
    · rw [getElem?_eq_none (by rw [length_ofNat]; exact hpast)]
      rfl
  next => rw [hlow]

/-- Past the room of its class a unit shows zeros. -/
theorem getElem?_shows_of_kept_le (hindex : index < unit.size) (hkept : unit.scalar.kept t ≤ index) :
    (unit.shows t bytes)[index]? = some (.exact 0) := by
  have hnone : (unit.scalar.settle t bytes)[index]? = none := by
    apply getElem?_eq_none
    unfold settle
    dsimp only
    split
    next hsignaling =>
      rw [hsignaling.1] at hkept
      rw [length_ofNat]
      exact hkept
    next =>
      rw [length_resize]
      exact hkept
  rw [shows, getElem?_resize _ hindex, hnone]
  rfl

/-- A signaling NaN is not shown as it was put in. -/
theorem shows_ne_of_signaling (hbytes : bytes.isExact = true) (hlength : bytes.length = unit.size)
    (hfloat : unit.scalar = .float .float) (hsignaling : Signaling (bytes.resize 4).known) :
    unit.shows t bytes ≠ bytes := by
  intro hshows
  have hspelled := ofNat_known (isExact_resize hbytes 4)
  rw [length_resize] at hspelled
  have hsettle : unit.scalar.settle t bytes = .ofNat ((bytes.resize 4).known + 2 ^ 22) 4 := by
    rw [settle, hfloat]
    exact if_pos ⟨rfl, hsignaling⟩
  obtain ⟨hnonzero, hdiffers⟩ := third_byte_signaling hsignaling
  rw [hspelled, getElem?_resize _ (show 2 < 4 by omega)] at hnonzero hdiffers
  rcases Nat.lt_or_ge 2 unit.size with hinside | houtside
  · have hbyte : (unit.shows t bytes)[2]? = (ofNat ((bytes.resize 4).known + 2 ^ 22) 4)[2]? := by
      rw [shows, hsettle, getElem?_resize _ hinside, getElem?_ofNat (show 2 < 4 by omega)]
      rfl
    rw [← hbyte, hshows, getElem?_eq_getElem (by omega)] at hdiffers
    exact hdiffers rfl
  · rw [getElem?_eq_none (by omega)] at hnonzero
    exact hnonzero rfl

/-- The unit shows what was put in exactly when it gives it back. -/
theorem shows_eq_iff (hbytes : bytes.isExact = true) (hlength : bytes.length = unit.size) :
    unit.shows t bytes = bytes ↔ unit.GivesBack t bytes := by
  constructor
  · intro hshows
    refine ⟨fun byte hbyte => ?_, fun hfloat hsignaling => ?_⟩
    · obtain ⟨index, hindex⟩ := mem_iff_getElem?.mp hbyte
      rw [getElem?_drop] at hindex
      have hinside : unit.scalar.kept t + index < bytes.length :=
        (List.getElem?_eq_some_iff.mp hindex).1
      rw [← hshows, getElem?_shows_of_kept_le (by omega) (by omega)] at hindex
      exact (some.inj hindex).symm
    · exact shows_ne_of_signaling hbytes hlength hfloat hsignaling hshows
  · rintro ⟨hzeros, hcalm⟩
    have hsettle : unit.scalar.settle t bytes = bytes.resize (unit.scalar.kept t) := by
      refine if_neg ?_
      rintro ⟨hfloat, hsignaling⟩
      rw [hfloat] at hsignaling
      exact hcalm hfloat hsignaling
    refine ext_of_length (length_shows.trans hlength.symm) fun index hindex => ?_
    rcases Nat.lt_or_ge index (unit.scalar.kept t) with hkept | hpast
    · rw [shows, hsettle, getElem?_resize _ (by omega), getElem?_resize _ hkept,
        getElem?_eq_getElem hindex]
      rfl
    · rw [getElem?_shows_of_kept_le (by omega) hpast, getElem?_eq_getElem hindex]
      refine congrArg some (hzeros _ ?_).symm
      refine mem_iff_getElem?.mpr ⟨index - unit.scalar.kept t, ?_⟩
      rw [getElem?_drop, Nat.add_sub_cancel' hpast, getElem?_eq_getElem hindex]

/-- The bytes of a unit that held zeros, with a piece put in. -/
def spread (unit : StorageUnit) (within : Nat) (piece : BytePattern) : BytePattern :=
  .zeros within ++ piece ++ .zeros (unit.size - (within + piece.length))

section Spread

variable {within : Nat} {piece : BytePattern}

theorem length_spread (hfits : within + piece.length ≤ unit.size) :
    (unit.spread within piece).length = unit.size := by
  simp only [spread, length_append, length_zeros]
  omega

theorem isExact_spread (hpiece : piece.isExact = true) : (unit.spread within piece).isExact = true :=
  isExact_append (isExact_append (isExact_zeros _) hpiece) (isExact_zeros _)

/-- A piece that was put in comes back exactly when the unit gives back all its bytes. -/
theorem piece_shows_eq_iff (hpiece : piece.isExact = true) (hfits : within + piece.length ≤ unit.size) :
    ((unit.shows t (unit.spread within piece)).drop within).take piece.length = piece ↔
      unit.GivesBack t (unit.spread within piece) := by
  have hexact : (unit.spread within piece).isExact = true := isExact_spread hpiece
  have hlength := length_spread hfits
  rw [← shows_eq_iff hexact hlength]
  have hcut : ((unit.spread within piece).drop within).take piece.length = piece := by
    rw [spread, append_assoc, drop_left' (length_zeros _), take_left' rfl]
  constructor
  · intro hback
    refine ext_of_length (length_shows.trans hlength.symm) fun index hindex => ?_
    by_cases hinside : within ≤ index ∧ index < within + piece.length
    · have hbyte := congrArg (·[index - within]?) (hback.trans hcut.symm)
      simp only [getElem?_take_of_lt (show index - within < piece.length by omega),
        getElem?_drop, Nat.add_sub_cancel' hinside.1] at hbyte
      exact hbyte
    · -- around the piece there were zeros, and zeros are shown
      have hzero : (unit.spread within piece)[index]? = some (.exact 0) := by
        rw [spread, zeros, zeros, append_assoc]
        rcases Nat.lt_or_ge index within with hbefore | hafter
        · rw [getElem?_append_left (by rw [length_replicate]; exact hbefore),
            getElem?_replicate_of_lt hbefore]
        · rw [getElem?_append_right (by rw [length_replicate]; exact hafter),
            length_replicate, getElem?_append_right (by omega),
            getElem?_replicate_of_lt (by omega)]
      rw [getElem?_shows_of_zero (by omega) hzero hexact, hzero]
  · intro hshows
    rw [hshows, hcut]

end Spread

/-- Every unit of a list gives back its share of some bytes. -/
def AllGiveBack (t : Target) : List StorageUnit → BytePattern → Prop
  | [], _ => True
  | unit :: rest, bytes =>
    unit.GivesBack t (bytes.take unit.size) ∧ AllGiveBack t rest (bytes.drop unit.size)

instance decidableAllGiveBack (t : Target) : ∀ units bytes, Decidable (AllGiveBack t units bytes)
  | [], _ => isTrue trivial
  | unit :: rest, bytes =>
    have := decidableAllGiveBack t rest (bytes.drop unit.size)
    inferInstanceAs (Decidable (_ ∧ _))

theorem givesBack_zeros (t : Target) (unit : StorageUnit) (count : Nat) :
    unit.GivesBack t (.zeros count) := by
  refine ⟨fun byte hbyte => ?_, fun _ => ?_⟩
  · exact (mem_replicate.mp (mem_of_mem_drop hbyte)).2
  · have hzeros := resize_append_zeros [] count 4
    rw [nil_append] at hzeros
    rw [hzeros]
    decide

/-- Units before the first byte that is not zero do not matter. -/
theorem allGiveBack_append (t : Target) (before after : List StorageUnit) (bytes : BytePattern) :
    AllGiveBack t (before ++ after) (.zeros (total before) ++ bytes) ↔ AllGiveBack t after bytes := by
  induction before with
  | nil => rfl
  | cons unit rest ih =>
    have hsplit : zeros (total (unit :: rest)) =
        zeros unit.size ++ .zeros (total rest) := replicate_add ..
    rw [cons_append, AllGiveBack, hsplit, append_assoc,
      take_left' (length_zeros _), drop_left' (length_zeros _), ih,
      and_iff_right (givesBack_zeros t unit _)]

variable {units : List StorageUnit}

/-- Units that have room for all their bytes, and are no `float`, give back anything. -/
theorem allGiveBack_of_room (t : Target)
    (hroom : ∀ unit ∈ units, unit.size ≤ unit.scalar.kept t ∧ unit.scalar ≠ .float .float)
    (bytes : BytePattern) : AllGiveBack t units bytes := by
  induction units generalizing bytes with
  | nil => trivial
  | cons unit rest ih =>
    obtain ⟨hkept, hfloat⟩ := hroom unit mem_cons_self
    refine ⟨⟨fun byte hbyte => ?_, fun h => absurd h hfloat⟩,
      ih (fun other hother => hroom other (mem_cons_of_mem _ hother)) _⟩
    rw [drop_of_length_le (by rw [length_take]; omega)] at hbyte
    cases hbyte

/-- Class of the unit that starts at a byte. -/
def scalarAt? : List StorageUnit → Nat → Option Scalar
  | [], _ => none
  | unit :: _, 0 => some unit.scalar
  | unit :: rest, offset + 1 =>
    if unit.size ≤ offset + 1 then scalarAt? rest (offset + 1 - unit.size) else none

/-- In the unit that covers a byte, only the first byte is where a unit starts. -/
theorem scalarAt?_append {before after : List StorageUnit} {unit : StorageUnit} {offset : Nat}
    (hpos : ∀ other ∈ before, 0 < other.size) (hle : total before ≤ offset)
    (hlt : offset < total before + unit.size) :
    scalarAt? (before ++ unit :: after) offset =
      if offset = total before then some unit.scalar else none := by
  induction before generalizing offset with
  | nil =>
    have htotal : total [] = 0 := rfl
    rw [htotal, Nat.zero_add] at hlt
    rw [htotal]
    cases offset with
    | zero => rfl
    | succ offset => rw [nil_append, scalarAt?, if_neg (by omega), if_neg (by omega)]
  | cons other rest ih =>
    have htotal : total (other :: rest) = other.size + total rest := rfl
    have hother := hpos other mem_cons_self
    obtain _ | offset := offset
    · omega
    rw [cons_append, scalarAt?, if_pos (by omega),
      ih (fun unit hunit => hpos unit (mem_cons_of_mem _ hunit)) (by omega) (by omega)]
    have hsame : offset + 1 - other.size = total rest ↔ offset + 1 = total (other :: rest) := by omega
    simp only [hsame]

/-- What comes back of a pattern that was put into fresh units, from a byte of the first on. -/
def recovered (t : Target) : List StorageUnit → Nat → BytePattern → BytePattern
  | [], _, _ => []
  | unit :: rest, within, pattern =>
    let taken := min (unit.size - within) pattern.length
    ((unit.shows t (unit.spread within (pattern.take taken))).drop within).take taken ++
      recovered t rest 0 (pattern.drop taken)

theorem recovered_nil (t : Target) (units : List StorageUnit) (within : Nat) :
    recovered t units within [] = [] := by
  induction units generalizing within with
  | nil => rfl
  | cons unit rest ih => simp [recovered, ih]

variable {pattern : BytePattern} {within : Nat}

theorem length_recovered (t : Target) (hfits : within + pattern.length ≤ total units) :
    (recovered t units within pattern).length = pattern.length := by
  induction units generalizing within pattern with
  | nil =>
    simp only [total, foldr_nil] at hfits
    simp only [recovered, length_nil]
    omega
  | cons unit rest ih =>
    have htotal : total (unit :: rest) = unit.size + total rest := rfl
    rw [recovered, length_append, ih (by rw [length_drop]; omega), length_take,
      length_drop, length_drop, length_shows]
    omega

theorem isExact_recovered (t : Target)
    (hpattern : pattern.isExact = true) : (recovered t units within pattern).isExact = true := by
  induction units generalizing within pattern with
  | nil => rfl
  | cons unit rest ih =>
    refine isExact_append ?_ (ih (isExact_drop hpattern _))
    exact isExact_take (isExact_drop (isExact_shows (isExact_spread (isExact_take hpattern _))) _) _

/-- The bytes of fresh units with a pattern put in, those of the first unit apart. -/
theorem spread_append {unit : StorageUnit} {rest : List StorageUnit} (hwithin : within ≤ unit.size)
    (hfits : within + pattern.length ≤ total (unit :: rest)) :
    let taken := min (unit.size - within) pattern.length
    .zeros within ++ pattern ++ .zeros (total (unit :: rest) - (within + pattern.length)) =
      unit.spread within (pattern.take taken) ++
        (.zeros 0 ++ pattern.drop taken ++ .zeros (total rest - (0 + (pattern.drop taken).length))) := by
  intro taken
  have htotal : total (unit :: rest) = unit.size + total rest := rfl
  have hzeros a b : zeros a ++ .zeros b = .zeros (a + b) :=
    replicate_append_replicate
  have hempty : zeros 0 = [] := rfl
  rw [spread, length_take, length_drop, hempty]
  rcases Nat.le_total pattern.length (unit.size - within) with hinside | hacross
  · have htaken : taken = pattern.length := Nat.min_eq_right hinside
    rw [htaken, take_length, drop_length, nil_append, nil_append, append_assoc,
      append_assoc, append_assoc, hzeros]
    congr 3
    omega
  · have htaken : taken = unit.size - within := Nat.min_eq_left hacross
    have hfull : unit.size - (within + min taken pattern.length) = 0 := by omega
    have hrest : total (unit :: rest) - (within + pattern.length) =
        total rest - (0 + (pattern.length - taken)) := by omega
    rw [hfull, hempty, append_nil, nil_append, hrest, append_assoc, append_assoc,
      ← append_assoc (pattern.take taken), take_append_drop]

/-- A pattern comes back exactly when every unit gives back its share of it. -/
theorem recovered_eq_iff (t : Target)
    (hpattern : pattern.isExact = true) (hwithin : ∀ unit ∈ units.head?, within ≤ unit.size)
    (hfits : within + pattern.length ≤ total units) :
    recovered t units within pattern = pattern ↔ AllGiveBack t units
        (.zeros within ++ pattern ++ .zeros (total units - (within + pattern.length))) := by
  induction units generalizing within pattern with
  | nil =>
    simp only [total, foldr_nil, Nat.le_zero, Nat.add_eq_zero_iff, length_eq_zero_iff] at hfits
    simp [recovered, AllGiveBack, hfits.2]
  | cons unit rest ih =>
    have htotal : total (unit :: rest) = unit.size + total rest := rfl
    have hwithin : within ≤ unit.size := hwithin unit rfl
    rw [recovered, spread_append hwithin hfits]
    generalize htaken : min (unit.size - within) pattern.length = taken
    have hpiece : (pattern.take taken).length = taken := by
      rw [length_take]
      omega
    have hlater := ih (isExact_drop hpattern taken) (fun _ _ => Nat.zero_le _)
      (by rw [length_drop]; omega)
    have hinside : within + (pattern.take taken).length ≤ unit.size := by omega
    have hspread := length_spread hinside
    have hfirst := piece_shows_eq_iff (t := t) (isExact_take hpattern taken) hinside
    rw [hpiece] at hfirst
    rw [AllGiveBack, take_left' hspread, drop_left' hspread, ← hlater, ← hfirst]
    have hback : (((unit.shows t (unit.spread within (pattern.take taken))).drop within).take
        taken).length = (pattern.take taken).length := by
      rw [length_take, length_drop, length_shows]
      omega
    constructor
    · intro hwhole
      exact append_inj (hwhole.trans (take_append_drop taken pattern).symm) hback
    · rintro ⟨hhead, htail⟩
      rw [hhead, htail, take_append_drop]

end StorageUnit

end CoreC
