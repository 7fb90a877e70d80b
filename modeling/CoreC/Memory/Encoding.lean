import CoreC.Json.Record
import CoreC.Memory.Layout

/-! # Addresses and layouts in JSON

Addresses are objects when read and text when written. A unit is the array of its
size and its scalar, and a layout the array of its units and their number of
repetitions.
-/

namespace CoreC

open Json

namespace Base

/-- Null is no object; an object names a heap block, or a frame and a variable. -/
def ofJson? (j : Json) : Option Base := do
  if let .null := j then return .null
  let f ← Fields.ofJson? ["heap", "frame", "name"] j
  match f.given.lookup "heap" with
  | some block => return .heap (← block.toNat?)
  | none => return .frame (← f.required? "frame" Json.toNat?) (← f.required? "name" Json.toString?)

end Base

namespace Address

def toJson (a : Address) : Json := .str a.text

def ofJson? (j : Json) : Option Address := do
  let f ← Fields.ofJson? ["base", "offset"] j
  return ⟨← f.withDefault? "base" .null Base.ofJson?, ← f.required? "offset" Json.toInt?⟩

end Address

namespace Scalar

def toJson (scalar : Scalar) : Json := .str scalar.name

def ofJson? (j : Json) : Option Scalar := j.toString?.bind ofName?

end Scalar

namespace StorageUnit

def toJson (unit : StorageUnit) : Json := .arr [.ofNat unit.size, unit.scalar.toJson]

def ofJson? : Json → Option StorageUnit
  | .arr [size, scalar] => do return ⟨← size.toNat?, ← Scalar.ofJson? scalar⟩
  | _ => none

end StorageUnit

def Layout.toJson (layout : Layout) : Json :=
  .arr [.ofList StorageUnit.toJson layout.units, .ofNat layout.count]

end CoreC
