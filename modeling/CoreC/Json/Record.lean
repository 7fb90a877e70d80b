import CoreC.Json.Basic

/-! # Records and variants in JSON

A record is an object with a member per field, or the array of its fields in order.
Members that are not fields are passed over; a field given twice makes the record
invalid. A variant is its name alone, or an object whose one member has that name and
holds what the variant carries.
-/

namespace CoreC.Json

structure Fields where
  /-- Whether fields were given by name. -/
  named : Bool
  given : List (String × Json)

namespace Fields

variable {α : Type}

def ofJson? (names : List String) : Json → Option Fields
  | .obj members =>
      let known := members.filter fun member => names.contains member.1
      if (known.map (·.1)).Nodup then some ⟨true, known⟩ else none
  | .arr items =>
      if items.length ≤ names.length then some ⟨false, names.zip items⟩ else none
  | _ => none

def required? (f : Fields) (name : String) (decode : Json → Option α) : Option α :=
  (f.given.lookup name).bind decode

/-- A field that may be null, and may be missing from a record given by names. -/
def optional? (f : Fields) (name : String) (decode : Json → Option α) : Option (Option α) :=
  match f.given.lookup name with
  | some .null => some none
  | some j => (decode j).map some
  | none => if f.named then some none else none

def withDefault? (f : Fields) (name : String) (default : α) (decode : Json → Option α) : Option α :=
  match f.given.lookup name with
  | some j => decode j
  | none => some default

end Fields

/-- The name of a variant and what it carries. -/
def variant? : Json → Option (String × Option Json)
  | .str name => some (name, none)
  | .obj [(name, j)] => some (name, some j)
  | _ => none

/-- A variant that carries nothing, by a table of names. -/
def ofName? {α : Type} (names : List (String × α)) (j : Json) : Option α :=
  match variant? j with
  | some (name, none) | some (name, some .null) => names.lookup name
  | _ => none

def ofNamed {α : Type} [DecidableEq α] (names : List (String × α)) (a : α) : Json :=
  .str (((names.find? fun entry => entry.2 = a).map (·.1)).getD "")

def tagged (name : String) (content : Json) : Json := .obj [(name, content)]

def toOption? {α : Type} (decode : Json → Option α) : Json → Option (Option α)
  | .null => some none
  | j => (decode j).map some

end CoreC.Json
