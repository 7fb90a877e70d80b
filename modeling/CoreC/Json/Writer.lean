import CoreC.Json.Basic

/-! # Writing JSON text

Compact text: no blanks, members in order. A number that was not written as an
integer keeps an exponent, so that it reads back as such. A garbled value becomes the
replacement character.
-/

namespace CoreC.Json

namespace Writer

def escape (c : Char) : String :=
  if c = '"' then "\\\""
  else if c = '\\' then "\\\\"
  else if c.toNat < 0x20 then
    "\\u00" ++ (if c.toNat < 0x10 then "0" else "") ++ Number.hexText c.toNat
  else String.singleton c

def quoted (text : String) : String :=
  text.foldl (fun written c => written ++ escape c) "\"" ++ "\""

def numeral (n : Numeral) : String :=
  let sign := if n.negative then "-" else ""
  let digits := toString n.decimal.digits
  if n.integral then sign ++ digits else sign ++ digits ++ "e" ++ toString n.decimal.exponent

mutual

/-- The text written so far, with a value after it. -/
def append : String → Json → String
  | written, .garbled => written ++ quoted "\ufffd"
  | written, .null => written ++ "null"
  | written, .bool true => written ++ "true"
  | written, .bool false => written ++ "false"
  | written, .num n => written ++ numeral n
  | written, .str text => written ++ quoted text
  | written, .arr items => appendItems (written ++ "[") "" items ++ "]"
  | written, .obj members => appendMembers (written ++ "\x7b") "" members ++ "\x7d"

/-- The text written so far, with items after it, each after a separator. -/
def appendItems : String → String → List Json → String
  | written, _, [] => written
  | written, separator, item :: rest =>
      appendItems (append (written ++ separator) item) "," rest

/-- The text written so far, with members after it, each after a separator. -/
def appendMembers : String → String → List (String × Json) → String
  | written, _, [] => written
  | written, separator, (name, item) :: rest =>
      appendMembers (append (written ++ separator ++ quoted name ++ ":") item) "," rest

end

end Writer

def text (value : Json) : String := Writer.append "" value

end CoreC.Json
