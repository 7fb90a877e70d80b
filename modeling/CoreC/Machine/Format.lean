import CoreC.Memory.Object

/-! # Formatted output

A format is text with conversions, each of which takes the next argument. The letter
`l` in front of a conversion widens the integer it prints. An argument with several
possible values prints all of them in braces.
-/

namespace CoreC

inductive FormatPart where
  | char (c : Char)
  | conversion (widening : Nat) (spec : Char)
  deriving DecidableEq

namespace FormatPart

/-- What a backslash and the character after it stand for. -/
def escaped (c : Char) : List FormatPart :=
  if c = 'n' then [.char '\n']
  else if c = 't' then [.char '\t']
  else if c = 'r' then [.char '\r']
  else if c = '\\' then [.char '\\']
  else if c = '"' then [.char '"']
  else [.char '\\', .char c]

mutual

def ofChars : List Char → List FormatPart
  | [] => []
  | ['\\'] => [.char '\\']
  | '\\' :: c :: rest => escaped c ++ ofChars rest
  | c :: rest => if c = '%' then afterPercent 0 rest else .char c :: ofChars rest

/-- The parts after a percent sign and a number of `l`. -/
def afterPercent (widening : Nat) : List Char → List FormatPart
  | [] => [.char '%']
  | c :: rest =>
      if c = 'l' then afterPercent (widening + 1) rest
      else if c = '%' ∧ widening = 0 then .char '%' :: ofChars rest
      else .conversion widening c :: ofChars rest

end

/-- The integer rank that a number of `l` selects. -/
def rank : Nat → IntRank
  | 0 => .int
  | 1 => .long
  | _ => .longLong

end FormatPart

namespace Store

variable {ι φ : Type} [DecidableEq ι] [BEq φ] [Domain ι φ]

/-- Hexadecimal digits of an integer that is known, the text of one that is not. -/
def hexValue (v : Value ι φ) : String :=
  match v.exactInt with
  | .ok n => Number.hexText (Number.unsignedWord 128 n)
  | .error _ => v.text

def formatValue (s : Store ι φ) (widening : Nat) (spec : Char) (v : Value ι φ) :
    Except Fault String :=
  let mismatch (expected : String) : Except Fault String :=
    .error (.printf (.wrongArgument spec expected v.text))
  let converted (signed : Bool) := v.castToInt s.target ⟨FormatPart.rank widening, signed⟩
  match spec, v with
  | spec, .uninitialized _ => .error (.uninitialized (.printfArgument spec))
  | 'd', .int .. | 'i', .int .. => (converted true).map ValueSet.text
  | 'd', _ | 'i', _ => mismatch "an integer"
  | 'u', .int .. => (converted false).map ValueSet.text
  | 'x', .int .. => (converted false).map fun values => ", ".intercalate (values.items.map hexValue)
  | 'u', _ | 'x', _ => mismatch "an integer"
  | 'c', v =>
      match v.exactInt with
      | .ok n => .ok (String.singleton (Char.ofNat (Number.unsignedWord 8 n)))
      | .error (.unsupported _) => .ok v.text
      | .error _ => mismatch "a character"
  | 's', .pointer address _ => s.readString address
  | 's', _ => mismatch "a pointer"
  | 'f', .float data _ => .ok (Domain.fixedText ι data)
  | 'f', _ => mismatch "a floating value"
  | 'p', .pointer address _ =>
      if address.isNull then .ok "(nil)"
      else (s.numberOf address).map fun number => "0x" ++ Number.hexText number
  | 'p', .function name => .ok ("<function " ++ name ++ ">")
  | 'p', _ => mismatch "a pointer"
  | spec, _ => .error (.printf (.unknownSpec spec))

def formatArgument (s : Store ι φ) (widening : Nat) (spec : Char) (values : ValueSet ι φ) :
    Except Fault String := do
  match ← values.items.mapM (s.formatValue widening spec) with
  | [text] => return text
  | texts => return "\x7b" ++ ", ".intercalate texts ++ "\x7d"

def formatParts (s : Store ι φ) : List FormatPart → List (ValueSet ι φ) → String →
    Except Fault String
  | [], _, text => .ok text
  | .char c :: rest, args, text => s.formatParts rest args (text.push c)
  | .conversion .. :: _, [], _ => .error (.printf .missingArgument)
  | .conversion widening spec :: rest, values :: args, text => do
      s.formatParts rest args (text ++ (← s.formatArgument widening spec values))

def format (s : Store ι φ) (text : String) (args : List (ValueSet ι φ)) : Except Fault String :=
  s.formatParts (FormatPart.ofChars text.toList) args ""

end Store

end CoreC
