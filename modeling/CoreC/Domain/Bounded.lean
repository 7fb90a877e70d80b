import CoreC.Domain.Sign

/-! # The bounded domain

Integers from minus one up to a fixed bound are exact, all others unknown.
Floating numbers are known by their sign.
-/

namespace CoreC

inductive Bounded where
  | known (value : Int)
  | top
  deriving DecidableEq

namespace Bounded

/-- The greatest integer that stays exact. -/
def greatest : Int := 100

def ofInt (n : Int) : Bounded := if -1 ≤ n ∧ n ≤ greatest then .known n else .top

def text : Bounded → String
  | .known n => toString n
  | .top => "TOP"

def arith (t : Target) (type : IntType) (op : BinOp) (a b : Bounded) :
    Except Fault (List Bounded) :=
  match a, b with
  | .known x, .known y => (t.arith type op x y).map fun n => [ofInt n]
  | _, b => if op.divides ∧ b = .known 0 then .error (.divisionByZero op) else .ok [.top]

def compare (op : BinOp) (a b : Bounded) : List Bool :=
  match a, b with
  | .known x, .known y => [op.holds (some (Ord.compare x y))]
  | _, _ => [false, true]

def unary (t : Target) (type : IntType) (op : UnOp) : Bounded → Except Fault (List Bounded)
  | .known x => (t.arithUnary type op x).map fun n => [ofInt n]
  | .top => .ok [.top]

def truth : Bounded → List Bool
  | .known x => [x != 0]
  | .top => [false, true]

def cast (t : Target) (wanted : IntType) : Bounded → List Bounded
  | .known x => [ofInt (t.reduce wanted x)]
  | .top => [.top]

def toBytes (t : Target) (type : IntType) (a : Bounded) : BytePattern :=
  let width := t.intWidth type.rank
  match a with
  | .known x => .ofNat (t.encode type (t.reduce type x)) width
  | .top => .unknown width

def ofBytes (t : Target) (type : IntType) (bytes : BytePattern) : List Bounded :=
  match (bytes.resize (t.intWidth type.rank)).toNat? with
  | some pattern => [ofInt (t.decode type pattern)]
  | none => [.top]

def sign : Bounded → Sign
  | .known x => .ofInt x
  | .top => .top

instance : Domain Bounded Sign where
  ofInt := ofInt
  known?
    | .known n => some n
    | .top => none
  intText := text
  arith := arith
  compare := compare
  unary := unary
  truth := truth
  cast t _ wanted a := cast t wanted a
  toBytes := toBytes
  ofBytes t type bytes := .ok (ofBytes t type bytes)
  ofDouble _ x := .ofDouble x
  floatText := Sign.text
  fixedText := Sign.text
  floatOfInt _ a := a.sign
  intOfFloat _ _ a := .ok (if a = .zero then [.known 0] else [.top])
  floatArith _ op a b := Sign.floatArith op a b
  floatCompare := Sign.compare
  floatUnary := Sign.floatUnary
  floatTruth := Sign.truth
  floatCast _ a := a
  floatToBytes t kind a := a.toBytes (t.floatWidth kind)
  floatOfBytes t kind bytes := .ok (Sign.floatOfBytes t kind bytes)

end Bounded

end CoreC
