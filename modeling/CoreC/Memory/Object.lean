import CoreC.Memory.Store
import CoreC.Text.Utf8

/-! # Objects in memory

Conversions that need memory, copies of whole objects, and strings.
-/

namespace CoreC.Store

variable {ι φ : Type} [DecidableEq ι] [BEq φ] [Domain ι φ]

def convertValue (s : Store ι φ) (scalar : Scalar) (v : Value ι φ) : Except Fault (ValueSet ι φ) :=
  match scalar, v with
  | scalar, .uninitialized _ => .ok (.singleton (.uninitialized scalar))
  | .int type, .pointer address _ => do
      let number ← s.numberOf address
      return .singleton (.ofInt s.target type (Number.signedWord 128 number))
  | .int type, v => v.castToInt s.target type
  | .float kind, v => (v.castToFloat kind).map .singleton
  | .pointer pointeeSize, .pointer address _ => .ok (.singleton (.pointer address pointeeSize))
  | .pointer pointeeSize, .int data type => do
      let n ← (Value.int data type : Value ι φ).exactInt
      if n < 0 then return .singleton (.pointer ⟨.null, Number.signedWord 64 n⟩ pointeeSize)
      else return .singleton (s.pointerOf n.toNat pointeeSize)
  | .pointer _, .function name => .ok (.singleton (.function name))
  | .function, .function name => .ok (.singleton (.function name))
  | .function, .pointer address pointeeSize =>
      if address.isNull then .ok (.singleton v)
      else .error (.typeMismatch (.conversion .function (Value.pointer address pointeeSize : Value ι φ).text))
  | scalar, v => .error (.typeMismatch (.conversion scalar v.text))

/-- Values converted to a representation class, as for assignments, casts and
arguments. -/
def convert (s : Store ι φ) (scalar : Scalar) (values : ValueSet ι φ) :
    Except Fault (ValueSet ι φ) :=
  values.flatMap (s.convertValue scalar)

/-- Copies units from one place to another, one after the other, `offset` bytes from
where both begin. -/
def copyUnits (source dest : Address) : List StorageUnit → Int → StoreM ι φ PUnit
  | [], _ => pure ⟨⟩
  | unit :: rest, offset => do
      let s ← get
      match s.read (source.shift offset) unit.scalar with
      | .error fault => throw fault
      | .ok values =>
          write (dest.shift offset) values unit.scalar false
          copyUnits source dest rest (offset + Number.displacement unit.size)

def maxString : Nat := 10000

def readChar (s : Store ι φ) (address : Address) : Except Fault UInt8 := do
  match (← s.read address (.int .char)).items with
  | [v] => return UInt8.ofNat (Number.unsignedWord 8 (← v.exactInt))
  | _ => .error (.unsupported .uncertainString)

/-- The bytes of a string up to its closing zero, from an index on. -/
def readChars (s : Store ι φ) (address : Address) : Nat → Nat → Except Fault (List UInt8)
  | fuel, index => do
      let byte ← s.readChar (address.shift (index * s.target.intWidth .char : Nat))
      if byte = 0 then return []
      else
        match fuel with
        | 0 => .error (.unsupported .longString)
        | fuel + 1 => return byte :: (← s.readChars address fuel (index + 1))

def readString (s : Store ι φ) (address : Address) : Except Fault String :=
  (s.readChars address maxString 0).map Text.ofUtf8

end CoreC.Store
