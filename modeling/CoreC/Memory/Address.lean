import Std.Data.TreeMap

/-! # Addresses

An address is an object and a byte offset into it. The offset is free until memory
is accessed through it.
-/

namespace CoreC

abbrev FrameId := Nat

/-- The object that an address points into: no object, a variable of a frame, or a
heap block. -/
inductive Base where
  | null
  | frame (frame : FrameId) (name : String)
  | heap (block : Nat)
  deriving DecidableEq

namespace Base

def kindOrder : Base → Nat
  | .null => 0
  | .frame .. => 1
  | .heap _ => 2

def number : Base → Nat
  | .null => 0
  | .frame id _ => id
  | .heap id => id

def label : Base → String
  | .null => ""
  | .frame _ name => name
  | .heap _ => ""

/-- Objects are ordered by kind, then by number, then by name. -/
instance : Ord Base where
  compare := compareLex (compareOn kindOrder) (compareLex (compareOn number) (compareOn label))

instance : Std.TransOrd Base :=
  inferInstanceAs (Std.TransCmp
    (compareLex (compareOn kindOrder) (compareLex (compareOn number) (compareOn label))))

theorem compare_eq_iff (a b : Base) :
    compare a b = .eq ↔ a.kindOrder = b.kindOrder ∧ a.number = b.number ∧ a.label = b.label := by
  change compareLex _ _ a b = .eq ↔ _
  simp only [compareLex_eq_eq, compareOn, Std.compare_eq_iff_eq]

instance : Std.LawfulEqOrd Base where
  eq_of_compare {a b} h := by
    obtain ⟨hkind, hnumber, hlabel⟩ := (compare_eq_iff a b).mp h
    cases a <;> cases b <;> simp_all [kindOrder, number, label]

end Base

structure Address where
  base : Base
  offset : Int
  deriving DecidableEq

namespace Address

def null : Address := ⟨.null, 0⟩

def isNull (a : Address) : Bool := a = null

def shift (a : Address) (delta : Int) : Address := { a with offset := a.offset + delta }

/-- Addresses are ordered by object, then by offset. -/
def order (a b : Address) : Ordering := (compare a.base b.base).then (compare a.offset b.offset)

def text (a : Address) : String :=
  let base := match a.base with
    | .null => "NULL"
    | .frame frame name => "&" ++ name ++ "@" ++ toString frame
    | .heap block => "heap#" ++ toString block
  base ++ "+" ++ toString a.offset

end Address

end CoreC
