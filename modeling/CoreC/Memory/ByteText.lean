import CoreC.Memory.BytePattern

/-! # Text of byte patterns

Bytes are written lowest first with one blank between them: two hexadecimal digits
for an exact byte, `??` for a byte of which nothing is known, `--` for one that was
never written, and otherwise the value and the mask of known bits.
-/

namespace CoreC

namespace PartialByte

def text : PartialByte → String
  | .uninitialized => "--"
  | .bits value mask =>
      if mask = 0xff then Number.hexPadded 2 value.toNat
      else if mask = 0 ∧ value = 0 then "??"
      else Number.hexPadded 2 value.toNat ++ "/" ++ Number.hexPadded 2 mask.toNat

def ofText? (text : String) : Option PartialByte :=
  match text.toList with
  | ['?', '?'] => some .unknown
  | ['-', '-'] => some .uninitialized
  | [a, b] => (Number.ofHex? [a, b]).map fun value => .exact (UInt8.ofNat value)
  | [a, b, '/', c, d] => do
      return .bits (UInt8.ofNat (← Number.ofHex? [a, b])) (UInt8.ofNat (← Number.ofHex? [c, d]))
  | _ => none

end PartialByte

namespace BytePattern

def text (p : BytePattern) : String := " ".intercalate (p.map PartialByte.text)

def ofText? (text : String) : Option BytePattern :=
  if text = "" then some [] else (text.splitOn " ").mapM PartialByte.ofText?

end BytePattern

end CoreC
