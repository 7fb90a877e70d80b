import CoreC.Json.Reader
import CoreC.Json.Writer
import Mathlib.Data.List.Basic

/-! # Text that reads back

What is written for a JSON value reads as that value. Each piece of text is read in front of
anything that may follow it: digits in front of what is no digit, a string in front of what
comes after its closing quote, a value in front of a separator or a closing bracket.
-/

namespace CoreC

open List Double

/-- An integer is written without an exponent. -/
def Numeral.Plain (n : Numeral) : Prop := n.integral = true → n.decimal.exponent = 0

namespace Json

open Reader Writer

/-! ## What is written -/

namespace Writer

/-- Characters of a string without its quotes. -/
def escapes (text : List Char) : List Char := text.flatMap fun c => (escape c).toList

theorem toList_quoted (text : String) : (quoted text).toList = '"' :: escapes text.toList ++ ['"'] := by
  have hfold : ∀ chars written,
      (chars.foldl (fun written c => written ++ escape c) written).toList = written.toList ++ escapes chars := by
    intro chars
    induction chars with
    | nil => simp [escapes]
    | cons c rest ih =>
      intro written
      rw [foldl_cons, ih, String.toList_append, append_assoc]
      rfl
  rw [quoted, String.toList_append, String.foldl_eq_foldl_toList, hfold]
  rfl

mutual

/-- Characters of a value. -/
def chars : Json → List Char
  | .garbled => (quoted "\ufffd").toList
  | .null => "null".toList
  | .bool true => "true".toList
  | .bool false => "false".toList
  | .num n => (numeral n).toList
  | .str text => (quoted text).toList
  | .arr items => '[' :: itemChars [] items ++ [']']
  | .obj members => '\x7b' :: memberChars [] members ++ ['\x7d']

/-- Characters of items, each after a separator. -/
def itemChars : List Char → List Json → List Char
  | _, [] => []
  | separator, item :: rest => separator ++ chars item ++ itemChars [','] rest

/-- Characters of members, each after a separator. -/
def memberChars : List Char → List (String × Json) → List Char
  | _, [] => []
  | separator, (name, item) :: rest =>
    separator ++ (quoted name).toList ++ ':' :: chars item ++ memberChars [','] rest

end

mutual

theorem toList_append : ∀ written j, (append written j).toList = written.toList ++ chars j
  | written, .garbled | written, .null | written, .bool true | written, .bool false | written, .num _
  | written, .str _ => by rw [append, chars, String.toList_append]
  | written, .arr items => by
      rw [append, chars, String.toList_append, toList_appendItems, String.toList_append, append_assoc,
        append_assoc]
      rfl
  | written, .obj members => by
      rw [append, chars, String.toList_append, toList_appendMembers, String.toList_append, append_assoc,
        append_assoc]
      rfl

theorem toList_appendItems : ∀ written separator items,
    (appendItems written separator items).toList = written.toList ++ itemChars separator.toList items
  | written, separator, [] => by rw [appendItems, itemChars, append_nil]
  | written, separator, item :: rest => by
      rw [appendItems, itemChars, toList_appendItems, toList_append, String.toList_append]
      simp only [append_assoc]
      rfl

theorem toList_appendMembers : ∀ written separator members,
    (appendMembers written separator members).toList = written.toList ++ memberChars separator.toList members
  | written, separator, [] => by rw [appendMembers, memberChars, append_nil]
  | written, separator, (name, item) :: rest => by
      rw [appendMembers, memberChars, toList_appendMembers, toList_append, String.toList_append,
        String.toList_append, String.toList_append]
      simp only [append_assoc]
      rfl

end

theorem toList_text (j : Json) : j.text.toList = chars j := toList_append "" j

end Writer

/-! ## Numbers -/

/-- What follows cannot be read as part of a number. -/
def EndsNumber (rest : List Char) : Prop :=
  ∀ c ∈ rest.head?, c.isDigit = false ∧ c ≠ '.' ∧ c ≠ 'e' ∧ c ≠ 'E'

theorem readDigits_append {digits rest : List Char} (hdigits : ∀ c ∈ digits, c.isDigit = true)
    (hrest : ∀ c ∈ rest.head?, c.isDigit = false) (value count : Nat) :
    readDigits (digits ++ rest) value count =
      (Nat.ofDigitChars 10 digits value, count + digits.length, rest) := by
  induction digits generalizing value count with
  | nil =>
    cases rest with
    | nil => rfl
    | cons c rest =>
      have hc := hrest c rfl
      simp [readDigits, hc, Nat.ofDigitChars]
  | cons c digits ih =>
    have hc : c.isDigit = true := hdigits c mem_cons_self
    rw [cons_append, readDigits, if_pos hc, ih fun d hd => hdigits d (mem_cons_of_mem c hd)]
    simp only [Nat.ofDigitChars, foldl_cons, length_cons, Nat.mul_comm, Nat.add_assoc, Nat.add_comm 1]

variable {rest : List Char} (n : Nat)

/-- A positive number does not start with a zero. -/
theorem head?_toDigits {n : Nat} (hn : 0 < n) : (Nat.toDigits 10 n).head? ≠ some '0' := by
  induction n using Nat.strongRecOn with
  | ind n ih =>
    rcases Nat.lt_or_ge n 10 with hsmall | hlarge
    · have hdigit : ∀ n < 10, 0 < n → [Nat.digitChar n].head? ≠ some '0' := by decide
      rw [Nat.toDigits_of_lt_base hsmall]
      exact hdigit n hsmall hn
    · have hhead := ih (n / 10) (by omega) (by omega)
      have hne : Nat.toDigits 10 (n / 10) ≠ [] := Nat.toDigits_ne_nil
      rw [Nat.toDigits_of_base_le (by decide) hlarge, head?_append_of_ne_nil _ hne]
      exact hhead

/-- The digits of a number start with a digit. -/
theorem exists_toDigits : ∃ c rest, Nat.toDigits 10 n = c :: rest ∧ c.isDigit = true := by
  obtain ⟨c, rest, hdigits⟩ := exists_cons_of_ne_nil (Nat.toDigits_ne_nil (b := 10) (n := n))
  exact ⟨c, rest, hdigits, Nat.isDigit_of_mem_toDigits (by decide) (by decide) (hdigits ▸ mem_cons_self)⟩

theorem toList_toString : (toString n).toList = Nat.toDigits 10 n := by
  rw [Nat.toString_eq_ofList_toDigits, String.toList_ofList]

theorem exponent?_of_ends (hrest : EndsNumber rest) : exponent? rest = some (none, rest) := by
  cases rest with
  | nil => rfl
  | cons c rest =>
    obtain ⟨-, -, hlower, hupper⟩ := hrest c rfl
    simp [exponent?, hlower, hupper]

section

variable (hrest : ∀ c ∈ rest.head?, c.isDigit = false)

include hrest

theorem readDigits_toDigits :
    readDigits (Nat.toDigits 10 n ++ rest) 0 0 = (n, (Nat.toDigits 10 n).length, rest) := by
  have hdigits : ∀ c ∈ Nat.toDigits 10 n, c.isDigit = true := fun c hc =>
    Nat.isDigit_of_mem_toDigits (by decide) (by decide) hc
  rw [readDigits_append hdigits hrest, Nat.ofDigitChars_ten_toDigits, Nat.zero_add]

theorem unsigned?_toDigits (negative : Bool) :
    unsigned? negative (Nat.toDigits 10 n ++ rest) = (do
      let (digits, places, rest) ← fraction? n rest
      let (exponent, rest) ← exponent? rest
      return (⟨negative, ⟨digits, exponent.getD 0 - (places : Int)⟩, places = 0 && exponent.isNone⟩, rest)) := by
  have hleading : (1 < (Nat.toDigits 10 n).length && decide ((Nat.toDigits 10 n ++ rest).head? =
    some '0')) = false := by
    rcases Nat.eq_zero_or_pos n with rfl | hn
    · rfl
    · rw [head?_append_of_ne_nil _ Nat.toDigits_ne_nil, decide_eq_false (head?_toDigits hn), Bool.and_false]
  have hcount : (Nat.toDigits 10 n).length ≠ 0 := Nat.ne_of_gt Nat.length_toDigits_pos
  unfold unsigned?
  rw [readDigits_toDigits n hrest]
  dsimp only
  rw [if_neg hcount, hleading]
  rfl

/-- The digits of an exponent, after its sign. -/
theorem exponent?_toDigits : exponent? ('e' :: (Nat.toDigits 10 n ++ rest)) = some (some (n : Int), rest) ∧
      exponent? ('e' :: '-' :: (Nat.toDigits 10 n ++ rest)) = some (some (-(n : Int)), rest) := by
  have hread := readDigits_toDigits n hrest
  obtain ⟨count, hcount⟩ :=
    Nat.exists_eq_succ_of_ne_zero (Nat.ne_of_gt (Nat.length_toDigits_pos (b := 10) (n := n)))
  obtain ⟨c, digits, hdigits, hc⟩ := exists_toDigits n
  have hminus : c ≠ '-' := by
    rintro rfl
    cases hc
  have hplus : c ≠ '+' := by
    rintro rfl
    cases hc
  rw [hcount] at hread
  constructor
  · rw [hdigits, cons_append] at hread ⊢
    simp [exponent?, hminus, hplus, hread]
  · simp [exponent?, hread]

theorem exponent?_toString (k : Int) :
    exponent? ('e' :: ((toString k).toList ++ rest)) = some (some k, rest) := by
  cases k with
  | ofNat n =>
    have hdigits : (toString (Int.ofNat n)).toList = Nat.toDigits 10 n := toList_toString n
    rw [hdigits]
    exact (exponent?_toDigits n hrest).1
  | negSucc n =>
    have hdigits : (toString (Int.negSucc n)).toList = '-' :: Nat.toDigits 10 (n + 1) := by
      rw [← toList_toString]
      exact String.toList_append
    rw [hdigits, cons_append]
    exact (exponent?_toDigits (n + 1) hrest).2

end

/-- Characters of a number after its sign. -/
def magnitudeChars (n : Numeral) : List Char :=
  (if n.integral then toString n.decimal.digits
    else toString n.decimal.digits ++ "e" ++ toString n.decimal.exponent).toList

theorem toList_numeral (n : Numeral) :
    (numeral n).toList = (if n.negative then ['-'] else []) ++ magnitudeChars n := by
  unfold numeral magnitudeChars
  cases n.negative <;> cases n.integral <;> simp

theorem exists_magnitudeChars (n : Numeral) : ∃ c rest, magnitudeChars n = c :: rest ∧ c.isDigit = true := by
  obtain ⟨c, digits, hdigits, hc⟩ := exists_toDigits n.decimal.digits
  unfold magnitudeChars
  split
  · exact ⟨c, digits, by rw [toList_toString, hdigits], hc⟩
  · rw [String.toList_append, String.toList_append, toList_toString, hdigits, cons_append, cons_append]
    exact ⟨c, _, rfl, hc⟩

theorem unsigned?_magnitudeChars {n : Numeral} (hn : n.Plain) (hrest : EndsNumber rest) :
    unsigned? n.negative (magnitudeChars n ++ rest) = some (n, rest) := by
  obtain ⟨negative, ⟨digits, exponent⟩, integral⟩ := n
  have hdigit : ∀ c ∈ rest.head?, c.isDigit = false := fun c hc => (hrest c hc).1
  unfold magnitudeChars
  cases integral with
  | true =>
    obtain rfl : exponent = 0 := hn rfl
    have hfraction : fraction? digits rest = some (digits, 0, rest) := by
      cases rest with
      | nil => rfl
      | cons c rest =>
        obtain ⟨-, hpoint, -⟩ := hrest c rfl
        simp [fraction?, hpoint]
    simp only [↓reduceIte]
    rw [toList_toString, unsigned?_toDigits digits hdigit, hfraction]
    simp [exponent?_of_ends hrest]
  | false =>
    have hexponent := exponent?_toString hdigit exponent
    simp only [Bool.false_eq_true, ↓reduceIte]
    rw [String.toList_append, String.toList_append, toList_toString, append_assoc, append_assoc,
      unsigned?_toDigits digits (by simp)]
    rw [Int.toString_eq_repr] at hexponent
    simp [fraction?, hexponent]

/-- A number starts with its sign or with a digit. -/
theorem exists_numeral (n : Numeral) :
    ∃ c rest, (numeral n).toList = c :: rest ∧ (c = '-' ∨ c.isDigit = true) := by
  rw [toList_numeral]
  cases n.negative with
  | true => exact ⟨'-', magnitudeChars n, rfl, .inl rfl⟩
  | false =>
    obtain ⟨c, rest, hchars, hc⟩ := exists_magnitudeChars n
    exact ⟨c, rest, hchars, .inr hc⟩

theorem number?_numeral {n : Numeral} (hn : n.Plain) (hrest : EndsNumber rest) :
    number? ((numeral n).toList ++ rest) = some (n, rest) := by
  have hunsigned := unsigned?_magnitudeChars hn hrest
  rw [toList_numeral]
  cases hnegative : n.negative with
  | true =>
    rw [hnegative] at hunsigned
    exact hunsigned
  | false =>
    obtain ⟨c, digits, hchars, hc⟩ := exists_magnitudeChars n
    have hminus : c ≠ '-' := by
      rintro rfl
      cases hc
    rw [hnegative] at hunsigned
    simp only [Bool.false_eq_true, ↓reduceIte, nil_append]
    rw [hchars, cons_append] at hunsigned ⊢
    simp [number?, hminus, hunsigned]

/-! ## Strings -/

/-- A control character is written as four hexadecimal digits. -/
theorem escape_control : ∀ n < 0x20,
    (escape (Char.ofNat n)).toList = ['\\', 'u', '0', '0', (n / 16).digitChar, (n % 16).digitChar] := by
  decide +kernel

theorem hexUnit?_control : ∀ n < 0x20, hexUnit? '0' '0' (n / 16).digitChar (n % 16).digitChar = some n := by decide

/-- An escape by number that comes next has four hexadecimal digits. -/
def EscapesUnits (rest : List Char) : Prop :=
  ∀ a b c d more, rest = '\\' :: 'u' :: a :: b :: c :: d :: more → (hexUnit? a b c d).isSome

section Steps

variable {c : Char} {rest : List Char} {read : Option (List Char)}

theorem string?_plain (hquote : c ≠ '"') (hslash : c ≠ '\\') (hcontrol : ¬ c.toNat < 0x20) :
    string? (c :: rest) read = string? rest (read.map (c :: ·)) := by
  rw [string?.eq_def]
  split
  case h_6 c' rest' _ heq =>
    obtain ⟨rfl, rfl⟩ := List.cons.inj heq
    rw [if_neg (by simpa [hslash] using hcontrol)]
  all_goals simp_all

theorem string?_escaped (hc : c = '"' ∨ c = '\\') :
    string? ('\\' :: c :: rest) read = string? rest (read.map (c :: ·)) := by
  rcases hc with rfl | rfl
  · rw [string?.eq_def]
    simp [escaped?]
  · rw [string?.eq_def]
    simp [escaped?]

theorem string?_unit {n : Nat} (hn : n < 0x20) (hrest : EscapesUnits rest) :
    string? ('\\' :: 'u' :: '0' :: '0' :: (n / 16).digitChar :: (n % 16).digitChar :: rest) read =
      string? rest (read.map (Char.ofNat n :: ·)) := by
  have hunit := hexUnit?_control n hn
  have hhigh : isHighHalf n = false := by simp [isHighHalf]; omega
  have hlow : isLowHalf n = false := by simp [isLowHalf]; omega
  rw [string?.eq_def]
  split
  case h_3 e f g h more heq =>
    simp only [cons.injEq, true_and] at heq
    obtain ⟨rfl, rfl, rfl, rfl, rfl⟩ := heq
    obtain ⟨unit, hnext⟩ := Option.isSome_iff_exists.mp (hrest e f g h more rfl)
    simp [hunit, hnext, hhigh, hlow, pushUnit]
  case h_4 heq =>
    simp only [cons.injEq, true_and] at heq
    obtain ⟨rfl, rfl, rfl, rfl, rfl⟩ := heq
    simp [hunit, hhigh, hlow, pushUnit]
  case h_5 hunits heq =>
    simp only [cons.injEq, true_and] at heq
    exact absurd heq.2.symm (hunits _ _ _ _ _ heq.1.symm)
  case h_6 hslash heq =>
    simp only [cons.injEq] at heq
    exact absurd heq.2.symm (hslash _ _ heq.1.symm)
  all_goals simp_all

end Steps

theorem escapes_cons (c : Char) (text : List Char) :
    escapes (c :: text) = (escape c).toList ++ escapes text := rfl

/-- How a character is written in a string. -/
theorem escape_cases (c : Char) : ((c = '"' ∨ c = '\\') ∧ (Writer.escape c).toList = ['\\', c]) ∨
    (∃ n < 0x20, c = Char.ofNat n ∧
      (Writer.escape c).toList = ['\\', 'u', '0', '0', (n / 16).digitChar, (n % 16).digitChar]) ∨
    (c ≠ '"' ∧ c ≠ '\\' ∧ ¬ c.toNat < 0x20 ∧ (escape c).toList = [c]) := by
  by_cases hquote : c = '"'
  · subst hquote
    exact .inl ⟨.inl rfl, by decide +kernel⟩
  · by_cases hslash : c = '\\'
    · subst hslash
      exact .inl ⟨.inr rfl, by decide +kernel⟩
    · by_cases hcontrol : c.toNat < 0x20
      · refine .inr (.inl ⟨c.toNat, hcontrol, (Char.ofNat_toNat c).symm, ?_⟩)
        rw [← escape_control c.toNat hcontrol, Char.ofNat_toNat]
      · refine .inr (.inr ⟨hquote, hslash, hcontrol, ?_⟩)
        simp [Writer.escape, hquote, hslash, hcontrol]

/-- What is written for the rest of a string has whole escapes. -/
theorem escapesUnits_escapes (text tail : List Char) : EscapesUnits (Writer.escapes text ++ '"' :: tail) := by
  intro a b c d more hmore
  cases text with
  | nil => simp [escapes] at hmore
  | cons first text =>
    rw [escapes_cons] at hmore
    rcases escape_cases first with ⟨hfirst, hescape⟩ | ⟨n, hn, -, hescape⟩ | ⟨-, hslash, -, hescape⟩
    · rw [hescape] at hmore
      rcases hfirst with rfl | rfl <;> simp at hmore
    · rw [hescape] at hmore
      simp only [cons_append, nil_append, cons.injEq, true_and] at hmore
      obtain ⟨rfl, rfl, rfl, rfl, -⟩ := hmore
      rw [hexUnit?_control n hn]
      rfl
    · rw [hescape] at hmore
      simp [hslash] at hmore

/-- A string reads back, with what follows its closing quote. -/
theorem string?_escapes (text tail read : List Char) :
    string? (escapes text ++ '"' :: tail) (some read) =
      some (some (String.ofList (read.reverse ++ text)), tail) := by
  induction text generalizing read with
  | nil => simp [Writer.escapes, string?]
  | cons c text ih =>
    have hread : string? (Writer.escapes text ++ '"' :: tail) ((some read).map (c :: ·)) =
        some (some (String.ofList (read.reverse ++ c :: text)), tail) := by
      rw [Option.map_some, ih, reverse_cons, append_assoc]
      rfl
    rw [escapes_cons, append_assoc, ← hread]
    rcases escape_cases c with ⟨hc, hescape⟩ | ⟨n, hn, rfl, hescape⟩ | ⟨hquote, hslash, hcontrol, hescape⟩
    · rw [hescape]
      exact string?_escaped hc
    · rw [hescape]
      exact string?_unit hn (escapesUnits_escapes text tail)
    · rw [hescape]
      exact string?_plain hquote hslash hcontrol

theorem string?_quoted (text : String) (tail : List Char) :
    ∃ rest, (quoted text).toList ++ tail = '"' :: rest ∧ string? rest (some []) = some (some text, tail) := by
  refine ⟨Writer.escapes text.toList ++ '"' :: tail, ?_, ?_⟩
  · rw [toList_quoted, append_assoc]
    rfl
  · rw [string?_escapes, reverse_nil, nil_append, String.ofList_toList]

/-! ## Values -/

/-- A value without half characters, its integers written without an exponent. -/
inductive Plain : Json → Prop where
  | null : Plain .null
  | bool (value : Bool) : Plain (.bool value)
  | num {value : Numeral} (hvalue : value.Plain) : Plain (.num value)
  | str (value : String) : Plain (.str value)
  | arr {items : List Json} (hitems : ∀ item ∈ items, Plain item) : Plain (.arr items)
  | obj {members : List (String × Json)} (hmembers : ∀ member ∈ members, Plain member.2) : Plain (.obj members)

variable {c : Char}

theorem skipSpace_cons (hc : isSpace c = false) (rest : List Char) :
    skipSpace (c :: rest) = c :: rest := by
  simp [skipSpace, hc]

theorem endsNumber_cons (hc : c = ',' ∨ c = ']' ∨ c = '\x7d') (rest : List Char) :
    EndsNumber (c :: rest) := by
  intro d hd
  cases hd
  rcases hc with rfl | rfl | rfl <;> decide

theorem ne_of_startsNumber {c d : Char} (hc : c = '-' ∨ c.isDigit = true) (hd : d ≠ '-' ∧ d.isDigit = false) :
    c ≠ d := by
  rintro rfl
  rcases hc with hminus | hdigit
  · exact hd.1 hminus
  · rw [hd.2] at hdigit
    cases hdigit

theorem isSpace_of_startsNumber (hc : c = '-' ∨ c.isDigit = true) : isSpace c = false := by
  have hblank := ne_of_startsNumber (d := ' ') hc (by decide)
  have hline := ne_of_startsNumber (d := '\n') hc (by decide)
  have htab := ne_of_startsNumber (d := '\t') hc (by decide)
  have hreturn := ne_of_startsNumber (d := '\r') hc (by decide)
  simp [isSpace, hblank, hline, htab, hreturn]

/-- What a value starts with is neither blank nor a closing bracket. -/
theorem exists_chars (j : Json) : ∃ c rest, Writer.chars j = c :: rest ∧ isSpace c = false ∧ c ≠ ']' := by
  cases j with
  | garbled | str =>
    rw [Writer.chars, toList_quoted]
    exact ⟨'"', _, rfl, rfl, by decide⟩
  | null => exact ⟨'n', _, rfl, rfl, by decide⟩
  | bool value =>
    cases value
    · exact ⟨'f', _, rfl, rfl, by decide⟩
    · exact ⟨'t', _, rfl, rfl, by decide⟩
  | num n =>
    obtain ⟨c, rest, hchars, hc⟩ := exists_numeral n
    rw [Writer.chars]
    exact ⟨c, rest, hchars, isSpace_of_startsNumber hc, ne_of_startsNumber hc (by decide)⟩
  | arr items =>
    rw [Writer.chars]
    exact ⟨'[', _, rfl, rfl, by decide⟩
  | obj members =>
    rw [Writer.chars]
    exact ⟨'\x7b', _, rfl, rfl, by decide⟩

/-- A number is read where no other kind of value starts. -/
theorem value?_number (hc : c = '-' ∨ c.isDigit = true) (fuel : Nat) (rest : List Char) :
    value? (fuel + 1) (c :: rest) = (number? (c :: rest)).map fun (n, rest) => (.num n, rest) := by
  have hother {d} {tail} (hd : d ≠ '-' ∧ d.isDigit = false) : c :: rest ≠ d :: tail :=
    fun heq => ne_of_startsNumber hc hd (cons.inj heq).1
  rw [value?, skipSpace_cons (isSpace_of_startsNumber hc)]
  split
  case h_7 => rfl
  all_goals
    next heq => exact absurd heq (hother (by decide))

theorem value?_string (fuel : Nat) (text : String) (rest : List Char) :
    value? (fuel + 1) ((quoted text).toList ++ rest) = some (.str text, rest) := by
  obtain ⟨chars, hchars, hread⟩ := string?_quoted text rest
  rw [hchars, value?, skipSpace_cons rfl]
  simp [hread]

theorem itemChars_first (item : Json) (items : List Json) :
    itemChars [] (item :: items) = Writer.chars item ++ itemChars [','] items := by
  rw [itemChars, nil_append]

theorem itemChars_next (item : Json) (items : List Json) :
    itemChars [','] (item :: items) = ',' :: itemChars [] (item :: items) := by
  rw [itemChars, itemChars_first]
  rfl

theorem memberChars_first (name : String) (item : Json) (members : List (String × Json)) :
    memberChars [] ((name, item) :: members) =
      (quoted name).toList ++ ':' :: (Writer.chars item ++ memberChars [','] members) := by
  rw [memberChars, nil_append, append_assoc]
  rfl

theorem memberChars_next (member : String × Json) (members : List (String × Json)) :
    memberChars [','] (member :: members) = ',' :: memberChars [] (member :: members) := by
  rw [memberChars, memberChars_first, append_assoc, append_assoc]
  rfl

theorem skipSpace_chars (j : Json) (rest : List Char) :
    skipSpace (Writer.chars j ++ rest) = Writer.chars j ++ rest := by
  obtain ⟨c, chars, hchars, hspace, -⟩ := exists_chars j
  rw [hchars, cons_append, skipSpace_cons hspace]

/-- An array that has items is read item by item. -/
theorem value?_items (fuel : Nat) (item : Json) (items : List Json) (rest : List Char) :
    value? (fuel + 1) ('[' :: (itemChars [] (item :: items) ++ rest)) =
      items? fuel (itemChars [] (item :: items) ++ rest) [] := by
  obtain ⟨c, chars, hchars, -, hbracket⟩ := exists_chars item
  simp only [value?, skipSpace_cons (show isSpace '[' = false from rfl)]
  rw [itemChars_first, append_assoc, skipSpace_chars, hchars, cons_append]
  split
  next heq => exact absurd (cons.inj heq).1 hbracket
  next => rfl

/-- A member is read, and what comes next after it. -/
theorem members?_first {fuel : Nat} {name : String} {item : Json}
    (hitem : value? fuel (Writer.chars item ++ rest) = some (item, rest)) (read : List (String × Json)) :
    members? (fuel + 1) ((quoted name).toList ++ ':' :: (Writer.chars item ++ rest)) (some read) =
      match skipSpace rest with
      | ',' :: rest => members? fuel rest (some ((name, item) :: read))
      | '\x7d' :: rest => some (.obj ((name, item) :: read).reverse, rest)
      | _ => none := by
  obtain ⟨chars, hchars, hread⟩ := string?_quoted name (':' :: (Writer.chars item ++ rest))
  rw [hchars, members?, skipSpace_cons rfl]
  simp only [hread]
  rw [skipSpace_cons rfl]
  simp only [hitem]
  rfl

/-- An object that has members is read member by member. -/
theorem value?_members (fuel : Nat) (member : String × Json) (members : List (String × Json)) (rest : List Char) :
    value? (fuel + 1) ('\x7b' :: (memberChars [] (member :: members) ++ rest)) =
      members? fuel (memberChars [] (member :: members) ++ rest) (some []) := by
  obtain ⟨name, item⟩ := member
  simp only [value?, skipSpace_cons (show isSpace '\x7b' = false from rfl)]
  rw [memberChars_first, toList_quoted, append_assoc, append_assoc, cons_append, skipSpace_cons rfl]
  rfl

mutual

/-- A value reads back, in front of anything that cannot continue a number. -/
theorem value?_chars : ∀ j fuel rest, j.Plain → EndsNumber rest →
    2 * (Writer.chars j).length ≤ fuel → value? fuel (Writer.chars j ++ rest) = some (j, rest)
  | .null, fuel + 1, rest, _, _, _ | .bool true, fuel + 1, rest, _, _, _
  | .bool false, fuel + 1, rest, _, _, _ => by
      rw [Writer.chars]
      rfl
  | .num n, fuel + 1, rest, .num hn, hrest, _ => by
      obtain ⟨c, chars, hchars, hc⟩ := exists_numeral n
      have hread := number?_numeral hn hrest
      rw [Writer.chars]
      rw [hchars, cons_append] at hread ⊢
      rw [value?_number hc, hread]
      rfl
  | .str text, fuel + 1, rest, _, _, _ => by
      rw [Writer.chars]
      exact value?_string fuel text rest
  | .arr [], fuel + 1, rest, _, _, _ => by
      rw [Writer.chars, itemChars]
      rfl
  | .arr (item :: items), fuel + 1, rest, .arr hitems, hrest, hfuel => by
      rw [Writer.chars, length_append, length_cons, length_singleton] at hfuel
      rw [Writer.chars, append_assoc, cons_append, value?_items]
      exact items?_itemChars item items [] hitems (by omega)
  | .obj [], fuel + 1, rest, _, _, _ => by
      rw [Writer.chars, memberChars]
      rfl
  | .obj ((name, item) :: members), fuel + 1, rest, .obj hmembers, hrest, hfuel => by
      rw [Writer.chars, length_append, length_cons, length_singleton] at hfuel
      rw [Writer.chars, append_assoc, cons_append, value?_members]
      exact members?_memberChars name item members [] hmembers (by omega)
  | j, 0, rest, _, _, hfuel => by
      obtain ⟨c, chars, hchars, -⟩ := exists_chars j
      rw [hchars, length_cons] at hfuel
      omega

theorem items?_itemChars : ∀ item items {fuel rest} read,
    (∀ j ∈ item :: items, j.Plain) → 2 * (itemChars [] (item :: items)).length + 1 ≤ fuel →
    items? fuel (itemChars [] (item :: items) ++ ']' :: rest) read =
      some (.arr (read.reverse ++ item :: items), rest)
  | item, items, 0, rest, read, hitems, hfuel => by omega
  | item, [], fuel + 1, rest, read, hitems, hfuel => by
      rw [itemChars_first, length_append] at hfuel
      have hitem := value?_chars item fuel (']' :: rest) (hitems item mem_cons_self)
        (endsNumber_cons (.inr (.inl rfl)) rest) (by omega)
      rw [itemChars_first, itemChars, append_nil, items?, hitem]
      dsimp only
      rw [skipSpace_cons rfl]
      simp
  | item, next :: items, fuel + 1, rest, read, hitems, hfuel => by
      rw [itemChars_first, length_append, itemChars_next, length_cons] at hfuel
      have hitem := value?_chars item fuel (',' :: (itemChars [] (next :: items) ++ ']' :: rest))
        (hitems item mem_cons_self)
        (endsNumber_cons (.inl rfl) _) (by omega)
      rw [itemChars_first, itemChars_next, append_assoc, cons_append, items?, hitem]
      dsimp only
      rw [skipSpace_cons rfl]
      change items? fuel (itemChars [] (next :: items) ++ ']' :: rest) (item :: read) = _
      rw [items?_itemChars next items (item :: read) (fun j hj =>
        hitems j (mem_cons_of_mem item hj)) (by omega)]
      simp

theorem members?_memberChars : ∀ name item members {fuel rest} read,
    (∀ member ∈ (name, item) :: members, member.2.Plain) →
    2 * (memberChars [] ((name, item) :: members)).length + 1 ≤ fuel →
    members? fuel (memberChars [] ((name, item) :: members) ++ '\x7d' :: rest) (some read) =
      some (.obj (read.reverse ++ (name, item) :: members), rest)
  | name, item, members, 0, rest, read, hmembers, hfuel => by omega
  | name, item, [], fuel + 1, rest, read, hmembers, hfuel => by
      rw [memberChars_first, length_append, length_cons, length_append] at hfuel
      have hitem := value?_chars item fuel ('\x7d' :: rest) (hmembers (name, item) mem_cons_self)
        (endsNumber_cons (.inr (.inr rfl)) rest) (by omega)
      rw [memberChars_first, memberChars, append_nil, append_assoc, cons_append,
        members?_first hitem, skipSpace_cons rfl]
      simp
  | name, item, (next, other) :: members, fuel + 1, rest, read, hmembers, hfuel => by
      rw [memberChars_first, length_append, length_cons, length_append, memberChars_next,
        length_cons] at hfuel
      have hitem := value?_chars item fuel
        (',' :: (memberChars [] ((next, other) :: members) ++ '\x7d' :: rest))
        (hmembers (name, item) mem_cons_self) (endsNumber_cons (.inl rfl) _) (by omega)
      rw [memberChars_first, memberChars_next, append_assoc, cons_append,
        append_assoc, cons_append, members?_first hitem, skipSpace_cons rfl]
      change members? fuel (memberChars [] ((next, other) :: members) ++ '\x7d' :: rest) _ = _
      rw [members?_memberChars next other members ((name, item) :: read)
        (fun member hmember => hmembers member (mem_cons_of_mem _ hmember)) (by omega)]
      simp

end

/-- **Text reads back.** The text of a plain value reads as that value. -/
theorem ofText?_text {j : Json} (hj : j.Plain) : ofText? j.text = some j := by
  have hread := value?_chars j (2 * (Writer.chars j).length + 2) [] hj (by simp [EndsNumber]) (by omega)
  rw [append_nil] at hread
  unfold ofText?
  dsimp only
  rw [toList_text, hread]
  rfl

end Json

end CoreC
