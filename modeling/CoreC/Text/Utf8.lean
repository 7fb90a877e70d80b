/-! # Reading bytes as UTF-8 text

Decoding never fails: the longest prefix of a character that the following bytes
do not complete is replaced by one replacement character, and decoding goes on at
the byte that broke it.
-/

namespace CoreC.Text

/-- The character shown for bytes that are not text. -/
def replacement : Char := Char.ofNat 0xfffd

/-- A character under way: bytes still owed, value so far, and the range that the
next byte must lie in. -/
structure PartialChar where
  owed : Nat
  value : Nat
  low : Nat
  high : Nat

/-- The character that a leading byte of a longer sequence begins. -/
def PartialChar.begin? (byte : Nat) : Option PartialChar :=
  if 0xc2 ≤ byte ∧ byte ≤ 0xdf then some ⟨1, byte - 0xc0, 0x80, 0xbf⟩
  else if byte = 0xe0 then some ⟨2, 0, 0xa0, 0xbf⟩
  else if byte = 0xed then some ⟨2, 0xd, 0x80, 0x9f⟩
  else if 0xe1 ≤ byte ∧ byte ≤ 0xef then some ⟨2, byte - 0xe0, 0x80, 0xbf⟩
  else if byte = 0xf0 then some ⟨3, 0, 0x90, 0xbf⟩
  else if 0xf1 ≤ byte ∧ byte ≤ 0xf3 then some ⟨3, byte - 0xf0, 0x80, 0xbf⟩
  else if byte = 0xf4 then some ⟨3, 4, 0x80, 0x8f⟩
  else none

/-- What a byte yields between characters: characters to write, and the character
it begins, if any. -/
def startByte (byte : Nat) : List Char × Option PartialChar :=
  if byte < 0x80 then ([Char.ofNat byte], none)
  else
    match PartialChar.begin? byte with
    | some started => ([], some started)
    | none => ([replacement], none)

/-- What a byte yields inside a character. -/
def continueByte (started : PartialChar) (byte : Nat) : List Char × Option PartialChar :=
  if started.low ≤ byte ∧ byte ≤ started.high then
    let value := started.value * 0x40 + (byte - 0x80)
    if started.owed = 1 then ([Char.ofNat value], none)
    else ([], some ⟨started.owed - 1, value, 0x80, 0xbf⟩)
  else
    let (chars, next) := startByte byte
    (replacement :: chars, next)

/-- Characters of a byte sequence, with the character under way before it. -/
def decodeFrom : Option PartialChar → List UInt8 → List Char
  | none, [] => []
  | some _, [] => [replacement]
  | started, byte :: rest =>
      let (chars, next) := match started with
        | none => startByte byte.toNat
        | some started => continueByte started byte.toNat
      chars ++ decodeFrom next rest

def ofUtf8 (bytes : List UInt8) : String :=
  String.ofList (decodeFrom none bytes)

def toUtf8 (text : String) : List UInt8 :=
  text.toUTF8.data.toList

end CoreC.Text
