/-! # Blank characters

The characters with the Unicode property `White_Space`, and trimming by it.
-/

namespace CoreC.Text

/-- Whether a code point lies in one of the ranges, ends included. -/
def inRanges (ranges : List (Nat × Nat)) (code : Nat) : Bool :=
  ranges.any fun range => range.1 ≤ code && code ≤ range.2

/-- Ranges of code points that count as blank, in ascending order. -/
def blankRanges : List (Nat × Nat) :=
  [(0x9, 0xd), (0x20, 0x20), (0x85, 0x85), (0xa0, 0xa0), (0x1680, 0x1680), (0x2000, 0x200a),
    (0x2028, 0x2029), (0x202f, 0x202f), (0x205f, 0x205f), (0x3000, 0x3000)]

def isBlank (c : Char) : Bool := inRanges blankRanges c.toNat

/-- The text without the blanks at both ends. -/
def trim (text : String) : String :=
  let tail := text.toList.dropWhile isBlank
  String.ofList (tail.reverse.dropWhile isBlank).reverse

/-- The text before the first `mark`, all of it when there is none. -/
def before (mark : Char) (text : String) : String :=
  String.ofList (text.toList.takeWhile (· != mark))

/-- ASCII letters in lower case, everything else as it is. -/
def lowerAscii (text : String) : String :=
  text.map Char.toLower

/-- An unsigned decimal number with an optional plus sign, below `bound`. -/
def readCount? (bound : Nat) (text : String) : Option Nat :=
  let digits := match text.toList with
    | '+' :: rest => rest
    | chars => chars
  if digits.isEmpty || !digits.all Char.isDigit then none
  else
    let value := digits.foldl (fun value c => value * 10 + (c.toNat - '0'.toNat)) 0
    if value < bound then some value else none

end CoreC.Text
