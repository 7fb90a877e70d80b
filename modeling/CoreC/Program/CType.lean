import CoreC.Text.Quoted

/-! # C types

A type is a base type, a number of pointer levels and at most one array
dimension; programs arrive with their other dimensions flattened.
-/

namespace CoreC

/-- Integer ranks, narrowest first. -/
inductive IntRank where
  | char
  | short
  | int
  | long
  | longLong
  deriving DecidableEq

namespace IntRank

def order : IntRank → Nat
  | .char => 0
  | .short => 1
  | .int => 2
  | .long => 3
  | .longLong => 4

def name : IntRank → String
  | .char => "char"
  | .short => "short"
  | .int => "int"
  | .long => "long"
  | .longLong => "long long"

def describe : IntRank → String
  | .char => "Char"
  | .short => "Short"
  | .int => "Int"
  | .long => "Long"
  | .longLong => "LongLong"

end IntRank

/-- Floating precisions, narrowest first. -/
inductive FloatKind where
  | float
  | double
  | longDouble
  deriving DecidableEq

namespace FloatKind

def order : FloatKind → Nat
  | .float => 0
  | .double => 1
  | .longDouble => 2

def wider (a b : FloatKind) : FloatKind := if a.order < b.order then b else a

def name : FloatKind → String
  | .float => "float"
  | .double => "double"
  | .longDouble => "long double"

def ofName? (text : String) : Option FloatKind :=
  [FloatKind.float, .double, .longDouble].find? fun kind => kind.name = text

def describe : FloatKind → String
  | .float => "Float"
  | .double => "Double"
  | .longDouble => "LongDouble"

end FloatKind

structure IntType where
  rank : IntRank
  signed : Bool
  deriving DecidableEq

namespace IntType

def char : IntType := ⟨.char, true⟩

def unsignedChar : IntType := ⟨.char, false⟩

def int : IntType := ⟨.int, true⟩

def long : IntType := ⟨.long, true⟩

def unsignedLong : IntType := ⟨.long, false⟩

/-- Type of a binary operation on two integers: the higher rank, the left one when
the ranks agree. -/
def common (left right : IntType) : IntType :=
  if left.rank.order < right.rank.order then right else left

def name (type : IntType) : String :=
  if type.signed then type.rank.name else "unsigned " ++ type.rank.name

def all : List IntType :=
  [IntRank.char, .short, .int, .long, .longLong].flatMap fun rank => [⟨rank, true⟩, ⟨rank, false⟩]

def ofName? (text : String) : Option IntType := all.find? fun type => type.name = text

def describe (type : IntType) : String :=
  "IntType \x7b kind: " ++ type.rank.describe ++ ", signed: " ++
    (if type.signed then "true" else "false") ++ " \x7d"

end IntType

/-- What a type is made of below its pointers and its array. -/
inductive BaseType where
  | void
  | integer (type : IntType)
  | floating (kind : FloatKind)
  | struct (name : String)
  | union (name : String)
  | function
  deriving DecidableEq

namespace BaseType

def describe : BaseType → String
  | .void => "Void"
  | .integer type => "Integer(" ++ type.describe ++ ")"
  | .floating kind => "Floating(" ++ kind.describe ++ ")"
  | .struct name => "Struct(" ++ Text.quoted name ++ ")"
  | .union name => "Union(" ++ Text.quoted name ++ ")"
  | .function => "Function"

end BaseType

/-- A C type. A function base with no pointer level is a function designator, with
one a function pointer. -/
structure CType where
  base : BaseType
  pointers : Nat
  length? : Option Nat
  deriving DecidableEq

namespace CType

def plain (base : BaseType) : CType := ⟨base, 0, none⟩

def void : CType := plain .void

def integer (type : IntType) : CType := plain (.integer type)

def int : CType := integer .int

def char : CType := integer .char

def floating (kind : FloatKind) : CType := plain (.floating kind)

def pointerTo (type : CType) : CType := { type with pointers := type.pointers + 1 }

def arrayOf (type : CType) (length : Nat) : CType := { type with length? := some length }

def isArray (type : CType) : Bool := type.length?.isSome

def isPointer (type : CType) : Bool := type.length?.isNone && 0 < type.pointers

def isVoid (type : CType) : Bool := type = void

/-- A struct or union object, neither behind a pointer nor in an array. -/
def isAggregate (type : CType) : Bool :=
  type.length?.isNone && type.pointers = 0 &&
    match type.base with
    | .struct _ | .union _ => true
    | _ => false

/-- A function, or a pointer to one. -/
def isFunction (type : CType) : Bool := type.base = .function && type.pointers ≤ 1

/-- A function itself. -/
def isFunctionDesignator (type : CType) : Bool := type.base = .function && type.pointers = 0

def intType? (type : CType) : Option IntType :=
  match type with
  | ⟨.integer int, 0, none⟩ => some int
  | _ => none

/-- Element type of an array; any other type is itself. -/
def element (type : CType) : CType := { type with length? := none }

/-- Type reached through one indirection. -/
def pointee? (type : CType) : Option CType :=
  if type.isArray then some type.element
  else if type.pointers = 0 then none
  else some { type with pointers := type.pointers - 1 }

/-- Pointer to this type; an array gives a pointer to its element. -/
def addressOf (type : CType) : CType := type.element.pointerTo

/-- Type of the value of an expression of this type: arrays decay. -/
def decayed (type : CType) : CType := if type.isArray then type.addressOf else type

def describe (type : CType) : String :=
  let length := match type.length? with
    | none => "None"
    | some n => "Some(" ++ toString n ++ ")"
  "Type \x7b base: " ++ type.base.describe ++ ", pointer_depth: " ++ toString type.pointers ++
    ", array_len: " ++ length ++ " \x7d"

end CType

end CoreC
