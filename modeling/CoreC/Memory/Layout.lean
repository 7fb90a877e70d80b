import CoreC.Fault
import CoreC.Program.Construct

/-! # Layout of objects

Every object is a number of repetitions of a list of units. A scalar is one unit, an
array repeats the units of its element, a struct lines up the units of its members,
and a union is one unit as large as its largest member. Padding belongs to the unit
before it, so the units of an object cover all of its bytes.

Members of an aggregate are laid out by the layouts of the aggregates inside it; as
an aggregate cannot contain itself, the number of declared aggregates bounds the
nesting.
-/

namespace CoreC

/-- One unit of an object: bytes taken, padding included, and what they hold. -/
structure StorageUnit where
  size : Nat
  scalar : Scalar
  deriving DecidableEq

def StorageUnit.total (units : List StorageUnit) : Nat :=
  units.foldr (fun unit bytes => unit.size + bytes) 0

structure Aggregate where
  fields : List Member
  union : Bool
  deriving DecidableEq

/-- Units of an object and how often they are repeated. -/
structure Layout where
  units : List StorageUnit
  count : Nat
  deriving DecidableEq

namespace Layout

def stride (layout : Layout) : Nat := StorageUnit.total layout.units

def size (layout : Layout) : Nat := layout.stride * layout.count

/-- The units with their repetitions written out. -/
def flatten (layout : Layout) : List StorageUnit := (List.replicate layout.count layout.units).flatten

end Layout

/-- Bytes from `offset` to the next multiple of `align`. -/
def padding (offset align : Nat) : Nat := (align - offset % align) % align

/-- The units with `bytes` of padding after the last one. -/
def padLast : List StorageUnit → Nat → List StorageUnit
  | [], _ => []
  | [last], bytes => [{ last with size := last.size + bytes }]
  | unit :: rest, bytes => unit :: padLast rest bytes

/-- Alignments and units of aggregates by name, as far down as they are known. -/
structure Resolver where
  aggregateAlign : String → Except Fault Nat
  structUnits : String → Except Fault (List StorageUnit)
  unionUnit : String → Except Fault StorageUnit

namespace Resolver

variable (t : Target) (r : Resolver)

/-- Step of pointers to a base type; `void` and functions step by one byte. -/
def baseStep : BaseType → Except Fault Nat
  | .void | .function => .ok 1
  | .integer type => .ok (t.intWidth type.rank)
  | .floating kind => .ok (t.floatWidth kind)
  | .struct name => (r.structUnits name).map StorageUnit.total
  | .union name => (r.unionUnit name).map StorageUnit.size

/-- Representation class of an object that is neither array nor aggregate. -/
def scalar (type : CType) : Except Fault Scalar :=
  if type.isArray then .error (.typeMismatch .scalarFromArray)
  else if type.isFunction then .ok .function
  else if 0 < type.pointers then do
    let step ← baseStep t r type.base
    return .pointer (if type.pointers = 1 then step else t.wordWidth)
  else
    match type.base with
    | .integer int => .ok (.int int)
    | .floating kind => .ok (.float kind)
    | .void => .error (.typeMismatch .voidObject)
    | .struct name | .union name => .error (.typeMismatch (.scalarFromAggregate name))
    | .function => .ok .function

/-- Units of a type that is not an array. -/
def elementUnits (type : CType) : Except Fault (List StorageUnit) :=
  match type.pointers, type.base with
  | 0, .struct name => r.structUnits name
  | 0, .union name => (r.unionUnit name).map ([·])
  | _, _ => (scalar t r type.element).map fun scalar => [⟨scalar.size t, scalar⟩]

def layout (type : CType) : Except Fault Layout :=
  (elementUnits t r type).map fun units => ⟨units, type.length?.getD 1⟩

def align (type : CType) : Except Fault Nat :=
  if t.packing = .compact then .ok 1
  else
    match type.pointers, type.base with
    | 0, .struct name | 0, .union name => r.aggregateAlign name
    | _, _ => (scalar t r type.element).map (·.size t)

/-- Widest alignment of some members. -/
def widest (fields : List Member) : Except Fault Nat :=
  fields.foldlM (fun widest field => (align t r field.type).map (max widest ·)) 1

/-- Members placed so far: their units, the bytes taken, and the widest alignment. -/
structure Placed where
  units : List StorageUnit
  offset : Nat
  widest : Nat

/-- The next member after those already placed. -/
def place (placed : Placed) (field : Member) : Except Fault Placed := do
  let align ← align t r field.type
  let layout ← layout t r field.type
  let gap := padding placed.offset align
  return {
    units := padLast placed.units gap ++ layout.flatten
    offset := placed.offset + gap + layout.size
    widest := max placed.widest align }

/-- Units of a struct: its members in order, and padding up to its own alignment. -/
def placeStruct (name : String) (fields : List Member) : Except Fault (List StorageUnit) := do
  let placed ← fields.foldlM (place t r) ⟨[], 0, 1⟩
  if placed.units.isEmpty then .error (.unsupported (.emptyStruct name))
  else return padLast placed.units (padding placed.offset placed.widest)

/-- The largest member seen so far, the first of them on a tie: its size and its
first unit's class. -/
def larger (best : Option (Nat × Scalar)) (field : Member) : Except Fault (Option (Nat × Scalar)) := do
  let layout ← layout t r field.type
  match layout.units, best with
  | [], _ => return best
  | first :: _, none => return some (layout.size, first.scalar)
  | first :: _, some (largest, scalar) =>
      if largest < layout.size then return some (layout.size, first.scalar)
      else return some (largest, scalar)

/-- The unit of a union: as large as its largest member, padded to its alignment. -/
def overlay (name : String) (fields : List Member) : Except Fault StorageUnit := do
  match ← fields.foldlM (larger t r) none with
  | none => .error (.unsupported (.emptyUnion name))
  | some (size, scalar) =>
      let align ← if t.packing = .compact then pure 1 else widest t r fields
      return ⟨size + padding size align, scalar⟩

end Resolver

/-- Layouts of all types of a program on one target. -/
structure Layouts where
  target : Target
  /-- Declared aggregates, the last declaration first. -/
  aggregates : List (String × Aggregate)

namespace Layouts

/-- The layouts over declared aggregates; a later declaration of a name wins. -/
def ofDeclarations (target : Target) (declared : List (String × Aggregate)) : Layouts :=
  ⟨target, declared.reverse⟩

/-- The layouts over the aggregates that a program declares anywhere. -/
def ofProgram (target : Target) (p : Program) : Layouts :=
  ofDeclarations target (p.nodes.toList.filterMap fun node =>
    match node.construct with
    | .structDecl name fields union => some (name, ⟨fields, union⟩)
    | _ => none)

def aggregate (l : Layouts) (name : String) : Except Fault Aggregate :=
  match l.aggregates.lookup name with
  | some aggregate => .ok aggregate
  | none => .error (.unsupported (.unknownAggregate name))

/-- The fault of an aggregate that nests too deep to end. -/
def refuse {α : Type} (l : Layouts) (name : String) : Except Fault α := do
  let _ ← l.aggregate name
  .error (.unsupported (.recursiveAggregate name))

/-- Layouts of aggregates that nest at most `depth` deep. -/
def resolver (l : Layouts) : Nat → Resolver
  | 0 => ⟨l.refuse, l.refuse, l.refuse⟩
  | depth + 1 =>
      let inner := l.resolver depth
      { aggregateAlign := fun name => do
          let aggregate ← l.aggregate name
          inner.widest l.target aggregate.fields
        structUnits := fun name => do
          let aggregate ← l.aggregate name
          if aggregate.union then (inner.overlay l.target name aggregate.fields).map ([·])
          else inner.placeStruct l.target name aggregate.fields
        unionUnit := fun name => do
          let aggregate ← l.aggregate name
          inner.overlay l.target name aggregate.fields }

/-- The resolver that reaches every aggregate of the program. -/
def full (l : Layouts) : Resolver := l.resolver (l.aggregates.length + 1)

def scalar (l : Layouts) (type : CType) : Except Fault Scalar := l.full.scalar l.target type

def layout (l : Layouts) (type : CType) : Except Fault Layout := l.full.layout l.target type

def sizeOf (l : Layouts) (type : CType) : Except Fault Nat := (l.layout type).map Layout.size

def align (l : Layouts) (type : CType) : Except Fault Nat := l.full.align l.target type

def step (l : Layouts) (type : CType) : Except Fault Nat :=
  if type.pointers = 0 ∧ !type.isArray ∧ (type.base = .void ∨ type.base = .function) then .ok 1
  else l.sizeOf type

end Layouts

end CoreC
