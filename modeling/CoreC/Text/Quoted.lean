import CoreC.Number.Word
import CoreC.Text.Hidden

/-! # Quoted names in diagnostics

A name inside a description is put between double quotes. Quotes, backslashes and
characters that do not print on their own are escaped.
-/

namespace CoreC.Text

def quotedChar (c : Char) : String :=
  if c = '"' then "\\\""
  else if c = '\\' then "\\\\"
  else if c = '\n' then "\\n"
  else if c = '\r' then "\\r"
  else if c = '\t' then "\\t"
  else if c.toNat = 0 then "\\0"
  else if isHidden c then "\\u\x7b" ++ Number.hexText c.toNat ++ "\x7d"
  else String.singleton c

def quoted (text : String) : String :=
  "\"" ++ String.join (text.toList.map quotedChar) ++ "\""

end CoreC.Text
