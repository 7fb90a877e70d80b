import CoreC.Domain.Basic

/-! # Values

A value is data of the active domain with its C type, a pointer, a function, or the
mark of a cell that was never written. Value sets keep their members in the order
in which they were first inserted.
-/

namespace CoreC

inductive Value (ι φ : Type) where
  | int (data : ι) (type : IntType)
  | float (data : φ) (kind : FloatKind)
  | pointer (address : Address) (pointeeSize : Nat)
  | function (name : String)
  | uninitialized (scalar : Scalar)
  deriving DecidableEq

namespace Value

variable {ι φ : Type}

def same [DecidableEq ι] [BEq φ] : Value ι φ → Value ι φ → Bool
  | .int a s, .int b t => a = b && s = t
  | .float a j, .float b k => a == b && j = k
  | .pointer a m, .pointer b n => a = b && m = n
  | .function f, .function g => f = g
  | .uninitialized s, .uninitialized t => s = t
  | _, _ => false

instance [DecidableEq ι] [BEq φ] : BEq (Value ι φ) := ⟨same⟩

def scalar : Value ι φ → Scalar
  | .int _ type => .int type
  | .float _ kind => .float kind
  | .pointer _ pointeeSize => .pointer pointeeSize
  | .function _ => .function
  | .uninitialized scalar => scalar

def isInitialized : Value ι φ → Bool
  | .uninitialized _ => false
  | _ => true

def null (pointeeSize : Nat) : Value ι φ := .pointer .null pointeeSize

/-- The same address with another step of pointer arithmetic. -/
def retype? (pointeeSize : Nat) : Value ι φ → Option (Value ι φ)
  | .pointer address _ => some (.pointer address pointeeSize)
  | _ => none

variable [Domain ι φ]

def text : Value ι φ → String
  | .int data _ => Domain.intText φ data
  | .float data _ => Domain.floatText ι data
  | .pointer address _ => address.text
  | .function name => "<function " ++ name ++ ">"
  | .uninitialized _ => "<uninitialized>"

/-- An integer reduced into the range of its type. -/
def ofInt (t : Target) (type : IntType) (n : Int) : Value ι φ :=
  .int (Domain.ofInt φ (t.reduce type n)) type

def ofBool (t : Target) (b : Bool) : Value ι φ := ofInt t .int (if b then 1 else 0)

def ofDouble (kind : FloatKind) (x : Double) : Value ι φ := .float (Domain.ofDouble ι kind x) kind

def exactInt : Value ι φ → Except Fault Int
  | .int data _ =>
      match Domain.known? φ data with
      | some n => .ok n
      | none => .error (.unsupported (.abstractInteger (Domain.intText φ data)))
  | .uninitialized _ => .error (.uninitialized .integerOperand)
  | other => .error (.typeMismatch (.integerExpected other.text))

def truth : Value ι φ → Except Fault (List Bool)
  | .int data _ => .ok (Domain.truth φ data)
  | .float data _ => .ok (Domain.floatTruth ι data)
  | .pointer address _ => .ok [!address.isNull]
  | .function _ => .ok [true]
  | .uninitialized _ => .error (.uninitialized .branchCondition)

end Value

/-- Possible values, without repetition, in the order of their insertion. -/
structure ValueSet (ι φ : Type) where
  items : List (Value ι φ)

namespace ValueSet

variable {ι φ : Type}

def empty : ValueSet ι φ := ⟨[]⟩

def singleton (v : Value ι φ) : ValueSet ι φ := ⟨[v]⟩

/-- Whether every member marks a cell that was never written. -/
def allUninitialized (s : ValueSet ι φ) : Bool := s.items.all fun v => !v.isInitialized

variable [DecidableEq ι] [BEq φ]

def insert (s : ValueSet ι φ) (v : Value ι φ) : ValueSet ι φ :=
  if s.items.contains v then s else ⟨s.items ++ [v]⟩

def insertAll (s : ValueSet ι φ) (values : List (Value ι φ)) : ValueSet ι φ :=
  values.foldl insert s

def ofList (values : List (Value ι φ)) : ValueSet ι φ := empty.insertAll values

def union (s t : ValueSet ι φ) : ValueSet ι φ := s.insertAll t.items

/-- Same members in the same order. -/
def same (s t : ValueSet ι φ) : Bool := s.items == t.items

/-- The union of what an operation gives for the values of a list, in order. -/
def flatMapList (values : List (Value ι φ)) (f : Value ι φ → Except Fault (ValueSet ι φ)) :
    Except Fault (ValueSet ι φ) :=
  values.foldlM (fun out v => (f v).map out.union) empty

/-- The union of what an operation gives for each member. -/
def flatMap (s : ValueSet ι φ) (f : Value ι φ → Except Fault (ValueSet ι φ)) :
    Except Fault (ValueSet ι φ) :=
  flatMapList s.items f

/-- The union of what an operation gives for each pair of members. -/
def lift₂ (s t : ValueSet ι φ)
    (f : Value ι φ → Value ι φ → Except Fault (ValueSet ι φ)) : Except Fault (ValueSet ι φ) :=
  s.flatMap fun a => t.flatMap fun b => f a b

variable [Domain ι φ]

/-- A single value as it is, several in braces. -/
def text (s : ValueSet ι φ) : String :=
  match s.items with
  | [v] => v.text
  | items => "\x7b" ++ ", ".intercalate (items.map Value.text) ++ "\x7d"

end ValueSet

end CoreC
