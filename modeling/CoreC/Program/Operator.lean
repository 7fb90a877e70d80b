/-! # Operators

The operators that remain after desugaring: no short circuits, no compound
assignment, no increments.
-/

namespace CoreC

inductive BinOp where
  | add
  | sub
  | mul
  | div
  | mod
  | eq
  | ne
  | lt
  | le
  | gt
  | ge
  | bitAnd
  | bitOr
  | bitXor
  | shl
  | shr
  deriving DecidableEq

namespace BinOp

/-- A comparison, whose result is a truth value. -/
def isRelational : BinOp → Bool
  | .eq | .ne | .lt | .le | .gt | .ge => true
  | _ => false

/-- Division or remainder, which have no result at divisor zero. -/
def divides : BinOp → Bool
  | .div | .mod => true
  | _ => false

def symbol : BinOp → String
  | .add => "+"
  | .sub => "-"
  | .mul => "*"
  | .div => "/"
  | .mod => "%"
  | .eq => "=="
  | .ne => "!="
  | .lt => "<"
  | .le => "<="
  | .gt => ">"
  | .ge => ">="
  | .bitAnd => "&"
  | .bitOr => "|"
  | .bitXor => "^"
  | .shl => "<<"
  | .shr => ">>"

/-- Whether a comparison holds between operands that compare in the given way;
operands that do not compare only differ. -/
def holds (op : BinOp) (order : Option Ordering) : Bool :=
  match op, order with
  | .eq, some .eq => true
  | .ne, order => order != some .eq
  | .lt, some .lt => true
  | .le, some .lt | .le, some .eq => true
  | .gt, some .gt => true
  | .ge, some .gt | .ge, some .eq => true
  | _, _ => false

end BinOp

inductive UnOp where
  | neg
  | plus
  | not
  | bitNot
  | deref
  | addrOf
  deriving DecidableEq

namespace UnOp

def describe : UnOp → String
  | .neg => "Neg"
  | .plus => "Plus"
  | .not => "Not"
  | .bitNot => "BitNot"
  | .deref => "Deref"
  | .addrOf => "AddrOf"

end UnOp

end CoreC
