import CoreC.Proofs.Memory.Generation

/-! # String literals

A literal is written character by character, and its text is read back the same way. In ones'
complement no character is `-128`, so that the byte `0x80` is read back as `0x7f`, the delete: there
a text comes back only if it has no such byte.
-/

namespace CoreC

open List Number

/-! ## Text and its bytes -/

namespace Text

/-- The next byte of a character under way. -/
theorem decodeFrom_continue {started : PartialChar} {n : Nat} (hn : n < 256) (hlow : started.low ≤ n)
    (hhigh : n ≤ started.high) (rest : List UInt8) :
    decodeFrom (some started) (.ofNat n :: rest) =
      if started.owed = 1 then Char.ofNat (started.value * 0x40 + (n - 0x80)) :: decodeFrom none rest
      else decodeFrom (some ⟨started.owed - 1, started.value * 0x40 + (n - 0x80), 0x80, 0xbf⟩) rest := by
  rw [decodeFrom, UInt8.toNat_ofNat', Nat.mod_eq_of_lt hn]
  simp only [continueByte, hlow, hhigh, true_and, ↓reduceIte]
  split <;> rfl

/-- The first byte of a longer character. -/
theorem decodeFrom_begin {n : Nat} (hn : n < 256) {started : PartialChar} (hascii : 0x80 ≤ n)
    (hbegin : PartialChar.begin? n = some started) (rest : List UInt8) :
    decodeFrom none (.ofNat n :: rest) = decodeFrom (some started) rest := by
  rw [decodeFrom, UInt8.toNat_ofNat', Nat.mod_eq_of_lt hn]
  simp [startByte, hbegin, Nat.not_lt.mpr hascii]

theorem decodeFrom_encode (c : Char) (rest : List UInt8) :
    decodeFrom none (String.utf8EncodeChar c ++ rest) = c :: decodeFrom none rest := by
  have hvalid : c.toNat < 0xd800 ∨ 0xdfff < c.toNat ∧ c.toNat < 0x110000 := c.valid
  have hvalue {n} (hn : n = c.toNat) : Char.ofNat n :: decodeFrom none rest = c :: decodeFrom none rest := by
    rw [hn, Char.ofNat_toNat]
  unfold String.utf8EncodeChar
  simp only [Char.toNat_val]
  split_ifs with hone htwo hthree <;> simp only [cons_append, nil_append]
  · have hascii : c.toNat < 0x80 := by omega
    rw [decodeFrom, UInt8.toNat_ofNat', Nat.mod_eq_of_lt (by omega)]
    simp [startByte, hascii]
  · rw [decodeFrom_begin (by omega) (by omega) (if_pos (by omega)),
      decodeFrom_continue (by omega) (by simp) (by simp; omega), if_pos rfl]
    exact hvalue (by dsimp; omega)
  · obtain ⟨started, hstarted, howed, hval, hlow, hhigh⟩ : ∃ started,
        PartialChar.begin? (c.toNat / 4096 % 16 + 224) = some started ∧ started.owed = 2 ∧
        started.value = c.toNat / 4096 ∧ started.low ≤ c.toNat / 64 % 64 + 128 ∧
        c.toNat / 64 % 64 + 128 ≤ started.high := by
      unfold PartialChar.begin?
      split_ifs <;> first | omega | exact ⟨_, rfl, rfl, by dsimp; omega, by dsimp; omega, by dsimp; omega⟩
    rw [decodeFrom_begin (by omega) (by omega) hstarted, decodeFrom_continue (by omega) hlow hhigh,
      if_neg (by omega), decodeFrom_continue (by omega) (by simp) (by simp; omega), if_pos (by simp [howed])]
    exact hvalue (by dsimp; omega)
  · obtain ⟨started, hstarted, howed, hval, hlow, hhigh⟩ : ∃ started,
        PartialChar.begin? (c.toNat / 262144 % 8 + 240) = some started ∧ started.owed = 3 ∧
        started.value = c.toNat / 262144 ∧ started.low ≤ c.toNat / 4096 % 64 + 128 ∧
        c.toNat / 4096 % 64 + 128 ≤ started.high := by
      unfold PartialChar.begin?
      split_ifs <;> first | omega | exact ⟨_, rfl, rfl, by dsimp; omega, by dsimp; omega, by dsimp; omega⟩
    rw [decodeFrom_begin (by omega) (by omega) hstarted, decodeFrom_continue (by omega) hlow hhigh,
      if_neg (by omega), decodeFrom_continue (by omega) (by simp) (by simp; omega), if_neg (by simp [howed]),
      decodeFrom_continue (by omega) (by simp) (by simp; omega), if_pos (by simp [howed])]
    exact hvalue (by dsimp; omega)

theorem ofUtf8_toUtf8 (text : String) : ofUtf8 (toUtf8 text) = text := by
  obtain ⟨chars, rfl⟩ := text.exists_eq_ofList
  have hbytes : toUtf8 (.ofList chars) = chars.flatMap String.utf8EncodeChar := by
    simp [toUtf8, String.toUTF8, String.toByteArray_ofList, utf8Encode, data_toByteArray]
  rw [ofUtf8, hbytes]
  congr 1
  clear hbytes
  induction chars with
  | nil => rfl
  | cons c rest ih => rw [flatMap_cons, decodeFrom_encode, ih]

end Text

/-! ## Bytes as characters -/

/-- The byte that is read back where a byte was written as a character. -/
def Target.printed (t : Target) (byte : UInt8) : UInt8 := if t.complement = .ones ∧ byte = 0x80 then 0x7f else byte

variable {t : Target} {byte : UInt8}

theorem Target.printed_eq (t : Target) (byte : UInt8) :
    UInt8.ofNat (unsignedWord 8 (t.reduce .char (signedWord 8 byte.toNat))) = t.printed byte := by
  have hall : ∀ n : Nat, n < 256 →
      UInt8.ofNat (unsignedWord 8 (t.reduce .char (signedWord 8 n))) = t.printed (.ofNat n) := by
    cases t <;> decide +kernel
  rw [hall _ byte.toNat_lt, UInt8.ofNat_toNat]

theorem Target.printed_eq_zero : t.printed byte = 0 ↔ byte = 0 := by
  unfold printed
  split_ifs with h
  · simp [h]
  · rfl

namespace Store

/-- The first characters of an object are those of a text, and the others were never written. -/
structure Inscribed (s : Store Int Double) (base : Base) (step count : Nat) (text : List UInt8) : Prop
    extends CharObject s base step count where
  shown : ∀ {key : Nat} {cell : Cell Int Double} {index : Nat}, s.cells[key]? = some cell →
    cell.base = base → cell.offset = index * step → match text[index]? with
      | some byte => cell.contents = .singleton (.ofInt s.target .char (signedWord 8 byte.toNat))
      | none => ∀ v ∈ cell.contents.items, v.isInitialized = false

variable {s s' : Store Int Double} {base : Base} {step count : Nat} {text rest : List UInt8}

namespace Inscribed

section

variable (hs : s.Inscribed base step count text)

include hs

/-- The next character goes into its cell. -/
theorem write (hstep : 0 < step) (hroom : text.length < count) (byte : UInt8) :
    ∃ updates, Store.write (Address.shift ⟨base, 0⟩ (text.length * step : Nat))
        (.singleton (.ofInt s.target .char (signedWord 8 byte.toNat))) (.int .char) false s =
          .ok ⟨⟩ (s.commit updates) ∧
      (s.commit updates).Inscribed base step count (text ++ [byte]) := by
  obtain ⟨key, cell, weak, hcell, ⟨hbase, hoffset⟩, hwrite⟩ :=
    hs.toCharObject.write (v := .ofInt s.target .char (signedWord 8 byte.toNat)) hroom rfl
  have hblank := hs.shown hcell hbase hoffset
  simp only [getElem?_length] at hblank
  rw [merge, if_neg (by simpa [ValueSet.allUninitialized] using fun _ => hblank)] at hwrite
  refine ⟨_, hwrite, hs.toCharObject.commit _, fun {other changed index} hchanged hown hplace => ?_⟩
  obtain ⟨old, hold, rfl⟩ := exists_of_getElem?_commit hchanged
  by_cases hkey : other = key
  · subst hkey
    rw [hcell] at hold
    cases hold
    obtain rfl : text.length = index := Nat.eq_of_mul_eq_mul_right hstep (hoffset.symm.trans hplace)
    have hdiffers := same_eq_false hblank (v := .ofInt s.target .char (signedWord 8 byte.toNat)) rfl
    simp [settle, hdiffers]
  · -- cells of one object at one offset are the same cell
    obtain ⟨extent, hextent, hplaced⟩ := hs.ordered.placed hcell
    obtain ⟨extent', hextent', hplaced'⟩ := hs.ordered.placed hold
    rw [hbase] at hextent
    rw [show old.base = base from hown, hextent] at hextent'
    cases hextent'
    have hother : index ≠ text.length := by
      rintro rfl
      exact hkey (by rw [hplaced.offset_eq, hplaced'.offset_eq, hoffset]; exact congrArg _ hplace)
    have hsame := hs.shown hold hown hplace
    simp only [settle, Ne.symm hkey, false_and, if_false, commit_target]
    rcases Nat.lt_or_gt_of_ne hother with hlt | hgt
    · rwa [getElem?_append_left hlt]
    · rw [getElem?_eq_none (l := text) (by omega)] at hsame
      rwa [getElem?_eq_none (by simp; omega)]

theorem writeChars (hstep : 0 < step) (hroom : text.length + rest.length ≤ count)
    (hrun : Store.writeChars ⟨base, 0⟩ .char step rest text.length s = .ok ⟨⟩ s') :
    s'.Inscribed base step count (text ++ rest) ∧ s'.target = s.target := by
  induction rest generalizing s text with
  | nil =>
    cases hrun
    simpa using hs
  | cons byte rest ih =>
    rw [length_cons] at hroom
    obtain ⟨⟨⟩, middle, hfirst, hrest⟩ := bind_eq_ok.mp (get_bind_eq_ok.mp hrun)
    obtain ⟨updates, hwrite, hnext⟩ := hs.write hstep (by omega) byte
    cases hwrite.symm.trans hfirst
    have hlast := ih hnext (by simp; omega) (by simpa using hrest)
    simpa using hlast

theorem readChar {index : Nat} (hbyte : text[index]? = some byte) (hindex : index < count) :
    s.readChar (Address.shift ⟨base, 0⟩ (index * step : Nat)) = .ok (s.target.printed byte) := by
  obtain ⟨key, cell, hlocate, ⟨hbase, hoffset⟩, hscalar⟩ := hs.toCharObject.locate hindex
  have hshown := hs.shown (getElem?_of_locate hlocate) hbase hoffset
  simp only [hbyte] at hshown
  rw [← Target.printed_eq, Address.shift, Int.zero_add, Store.readChar, Store.read, hlocate]
  simp only [bind, Except.bind, hscalar, hshown]
  rfl

end

theorem readChars (hs : s.Inscribed base (s.target.intWidth .char) count (text ++ rest ++ [0]))
    (hcount : text.length + rest.length < count) (hrest : 0 ∉ rest) {fuel : Nat} (hfuel : rest.length ≤ fuel) :
    s.readChars ⟨base, 0⟩ fuel text.length = .ok (rest.map s.target.printed) := by
  induction rest generalizing text fuel with
  | nil =>
    rw [Store.readChars, hs.readChar (show _ = some 0 by simp) (by simpa using hcount),
      Target.printed_eq_zero.mpr rfl]
    rfl
  | cons byte rest ih =>
    rw [length_cons] at hcount hfuel
    rw [mem_cons, not_or] at hrest
    obtain _ | fuel := fuel
    · omega
    have hnext : s.readChars ⟨base, 0⟩ fuel (text ++ [byte]).length = _ :=
      ih (by simpa using hs) (by simp; omega) hrest.2 (Nat.le_of_succ_le_succ hfuel)
    rw [length_append, length_singleton] at hnext
    rw [Store.readChars, hs.readChar (show _ = some byte by simp) (by omega)]
    simp only [bind, Except.bind, Target.printed_eq_zero, Ne.symm hrest.1, if_false, hnext]
    rfl

end Inscribed

/-- What is read back of a literal that was laid out anew. -/
theorem Ordered.readChars_literal (hordered : s.Ordered) {site : NodeId}
    (hunowned : s.heap.owned? site .literal = none) (hnew : s.extents[Base.heap s.heap.blocks.size]? = none)
    (hzero : 0 ∉ text) (hlength : text.length ≤ maxString) :
    ∃ address s', literal site text s = .ok address s' ∧
      s'.readChars address maxString 0 = .ok (text.map s.target.printed) := by
  obtain ⟨hobject, s', hwritten, hliteral⟩ := hordered.literal_eq_ok hunowned (by simpa [isAllocated] using hnew) text
  have hblank : Inscribed _ _ _ _ [] := ⟨hobject, fun hcell hbase _ => unwritten_addObject
    (s := { s with heap := (s.heap.allocate site (text.length + 1) .literal).2 }) hordered hnew _ hcell hbase⟩
  obtain ⟨hlast, htarget⟩ := hblank.writeChars (s.target.intWidth_pos .char) (by simp) hwritten
  rw [← show s'.target = s.target from htarget] at hlast ⊢
  exact ⟨_, s', hliteral, @Inscribed.readChars s' _ _ [] text hlast (by simp) hzero _ hlength⟩

/-- **Literals print back.** Whatever operations built the store, a text without a zero, and not too
long, is laid out as a literal where its site owns none, if no object stands under the number of the
next block. It is read back byte by byte, and the text is the same unless negative integers are in
ones' complement and it has a byte `0x80`. -/
theorem literal_prints_back (target : Target) (update : UpdatePolicy) (heap : HeapPolicy)
    (operations : List (Operation Int Double)) {text : String} (hzero : 0 ∉ Text.toUtf8 text)
    (hlength : (Text.toUtf8 text).length ≤ maxString) (site : NodeId) :
    let s := operations.foldl Operation.after (new target update heap)
    s.heap.owned? site .literal = none → s.extents[Base.heap s.heap.blocks.size]? = none →
      ∃ address s', literal site (Text.toUtf8 text) s = .ok address s' ∧
        s'.readString address = .ok (Text.ofUtf8 ((Text.toUtf8 text).map s.target.printed)) ∧
        (s.target.complement = .twos ∨ 0x80 ∉ Text.toUtf8 text → s'.readString address = .ok text) := by
  intro s hunowned hnew
  have hordered := ((Reachable.new target update heap).foldl operations).ordered
  obtain ⟨address, s', hliteral, hread⟩ := Ordered.readChars_literal hordered hunowned hnew hzero hlength
  have hstring : s'.readString address = .ok (Text.ofUtf8 ((Text.toUtf8 text).map s.target.printed)) := by
    rw [readString, hread]
    rfl
  refine ⟨address, s', hliteral, hstring, fun hclean => ?_⟩
  have hkept : (Text.toUtf8 text).map s.target.printed = Text.toUtf8 text := by
    refine (map_congr_left fun byte hbyte => if_neg ?_).trans (map_id _)
    rintro ⟨hones, rfl⟩
    exact hclean.elim (by simp [hones]) (absurd hbyte)
  rw [hstring, hkept, Text.ofUtf8_toUtf8]

theorem literal_prints_back_packed : ∃ address, ∃ s' : Store Int Double,
    literal 3 (Text.toUtf8 "À") (new .packed .weak .concrete) = .ok address s' ∧
      s'.readString address = .ok "À" := by
  obtain ⟨address, s', hliteral, -, hread⟩ := @literal_prints_back .packed .weak .concrete [] "À"
    (by decide +kernel) (by decide +kernel) 3 rfl rfl
  exact ⟨address, s', hliteral, hread (.inl rfl)⟩

/-- In ones' complement the second byte of an accented letter is lost. -/
theorem accented_misprints : ∃ address, ∃ s' : Store Int Double,
    literal 3 (Text.toUtf8 "À") (new .std .strong .concrete) = .ok address s' ∧
      s'.readString address = .ok "\ufffd\x7f" := by
  obtain ⟨address, s', hliteral, hread⟩ := @Ordered.readChars_literal _ (Text.toUtf8 "À")
    (ordered_new .std .strong .concrete) 3 rfl rfl (by decide +kernel) (by decide +kernel)
  refine ⟨address, s', hliteral, ?_⟩
  have hshown : Text.ofUtf8 ((Text.toUtf8 "À").map Target.std.printed) = "\ufffd\x7f" := by decide +kernel
  rw [readString, hread, ← hshown]
  rfl

end Store

end CoreC
