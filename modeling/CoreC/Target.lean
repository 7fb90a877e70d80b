import CoreC.Program.CType

/-! # Targets

A target fixes what the language leaves open: the width of every scalar, how
negative integers are represented, and how the members of a struct are packed.

| target   | widths          | negative integers | packing |
|----------|-----------------|-------------------|---------|
| `packed` | 64-bit desktop  | two's complement  | compact |
| `gcc`    | 64-bit desktop  | two's complement  | aligned |
| `std`    | least permitted | ones' complement  | aligned |
-/

namespace CoreC

inductive Target where
  | packed
  | gcc
  | std
  deriving DecidableEq

inductive Complement where
  | ones
  | twos
  deriving DecidableEq

inductive Packing where
  /-- One after the other, without padding. -/
  | compact
  /-- Each at a multiple of its alignment, the whole padded to the widest one. -/
  | aligned
  deriving DecidableEq

namespace Target

def complement : Target → Complement
  | .packed | .gcc => .twos
  | .std => .ones

def packing : Target → Packing
  | .packed => .compact
  | .gcc | .std => .aligned

def intWidth : Target → IntRank → Nat
  | _, .char => 1
  | _, .short => 2
  | .std, .int => 2
  | _, .int => 4
  | .std, .long => 4
  | _, .long => 8
  | _, .longLong => 8

def intBits (t : Target) (rank : IntRank) : Nat := 8 * t.intWidth rank

def floatWidth : Target → FloatKind → Nat
  | _, .float => 4
  | _, .double => 8
  | .std, .longDouble => 8
  | _, .longDouble => 16

def wordWidth : Target → Nat
  | .std => 4
  | _ => 8

def minInt (t : Target) (type : IntType) : Int :=
  if type.signed then
    match t.complement with
    | .twos => -(2 ^ (t.intBits type.rank - 1))
    | .ones => -(2 ^ (t.intBits type.rank - 1) - 1)
  else 0

def maxInt (t : Target) (type : IntType) : Int :=
  if type.signed then 2 ^ (t.intBits type.rank - 1) - 1 else 2 ^ t.intBits type.rank - 1

end Target

/-- Representation class of one stored unit. -/
inductive Scalar where
  | int (type : IntType)
  | float (kind : FloatKind)
  | pointer (pointeeSize : Nat)
  | function
  deriving DecidableEq

namespace Scalar

def size (t : Target) : Scalar → Nat
  | .int type => t.intWidth type.rank
  | .float kind => t.floatWidth kind
  | .pointer _ | .function => t.wordWidth

/-- Same representation, so that a stored value can be returned as it is. -/
def compatible : Scalar → Scalar → Bool
  | .pointer _, .pointer _ => true
  | a, b => a = b

/-- A short name: the C spelling of a number, a pointer with its step, or a function. -/
def name : Scalar → String
  | .int type => type.name
  | .float kind => kind.name
  | .pointer pointeeSize => "ptr:" ++ toString pointeeSize
  | .function => "function"

def ofName? (text : String) : Option Scalar :=
  match text.toList with
  | 'p' :: 't' :: 'r' :: ':' :: step => (String.ofList step).toNat?.map .pointer
  | _ =>
      if text = "function" then some .function
      else
        match IntType.ofName? text with
        | some type => some (.int type)
        | none => (FloatKind.ofName? text).map .float

def describe : Scalar → String
  | .int type => "Int(" ++ type.describe ++ ")"
  | .float kind => "Float(" ++ kind.describe ++ ")"
  | .pointer pointeeSize => "Pointer \x7b pointee_size: " ++ toString pointeeSize ++ " \x7d"
  | .function => "Function"

end Scalar

end CoreC
