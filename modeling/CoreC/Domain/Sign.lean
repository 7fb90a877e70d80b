import CoreC.Domain.Basic

/-! # The sign domain

A number is known by its sign, or not at all. Operations are computed on the
concrete signs that an element stands for, and the outcomes are gathered into as
few elements as possible.
-/

namespace CoreC

inductive Polarity where
  | neg
  | zero
  | pos
  deriving DecidableEq

namespace Polarity

def flip : Polarity → Polarity
  | .neg => .pos
  | .zero => .zero
  | .pos => .neg

/-- The sign after a negative number has wrapped into an unsigned type. -/
def abs : Polarity → Polarity
  | .neg => .pos
  | sign => sign

def all : List Polarity := [.neg, .zero, .pos]

def add : Polarity → Polarity → List Polarity
  | .zero, b => [b]
  | a, .zero => [a]
  | a, b => if a = b then [a] else all

/-- Signs of `a op b` for numbers with signs `a` and `b`. -/
def arith (op : BinOp) (a b : Polarity) : List Polarity :=
  match op with
  | .add => add a b
  | .sub => add a b.flip
  | .mul => if a = .zero ∨ b = .zero then [.zero] else if a = b then [.pos] else [.neg]
  | .div => if a = .zero then [.zero] else if a = b then [.zero, .pos] else [.zero, .neg]
  | .mod => if a = .zero then [.zero] else [.zero, a]
  | .bitAnd =>
      if a = .zero ∨ b = .zero then [.zero]
      else if a = .pos ∨ b = .pos then [.zero, .pos]
      else [.neg]
  | .bitOr =>
      if a = .zero then [b]
      else if b = .zero then [a]
      else if a = .neg ∨ b = .neg then [.neg]
      else [.pos]
  | .bitXor =>
      if a = .zero then [b]
      else if b = .zero then [a]
      else if a = b then [.zero, .pos]
      else [.neg]
  | .shl => if a = .zero then [.zero] else if b = .zero then [a] else all
  | .shr =>
      if a = .zero then [.zero]
      else if b = .zero then [a]
      else if b = .neg then all
      else if a = .pos then [.zero, .pos]
      else [.neg]
  | .eq | .ne | .lt | .le | .gt | .ge => all

/-- Place on the number line. -/
def rank : Polarity → Int
  | .neg => -1
  | .zero => 0
  | .pos => 1

/-- Ways in which two numbers with the given signs may compare. -/
def orders (a b : Polarity) : List Ordering :=
  if a ≠ b then [Ord.compare a.rank b.rank]
  else if a = .zero then [.eq]
  else [.lt, .eq, .gt]

/-- Outcomes of a comparison; an operator that compares nothing may go either way. -/
def compare (op : BinOp) (a b : Polarity) : List Bool :=
  if op.isRelational then (orders a b).map fun order => op.holds (some order)
  else [true, false]

end Polarity

inductive Sign where
  | zero
  | plus
  | minus
  | top
  deriving DecidableEq

namespace Sign

def text : Sign → String
  | .zero => "ZERO"
  | .plus => "PLUS"
  | .minus => "MINUS"
  | .top => "TOP"

def ofText? (text : String) : Option Sign :=
  [zero, plus, minus, top].find? fun sign => sign.text = text

def ofInt (n : Int) : Sign := if n = 0 then .zero else if 0 < n then .plus else .minus

/-- Sign of a double; a NaN has none. -/
def ofDouble (x : Double) : Sign :=
  if x.isNaN then .top
  else if x.magnitude = 0 then .zero
  else if x.negative then .minus
  else .plus

/-- The signs that an element stands for. -/
def polarities : Sign → List Polarity
  | .zero => [.zero]
  | .plus => [.pos]
  | .minus => [.neg]
  | .top => Polarity.all

/-- The elements that stand for exactly the given signs. -/
def ofPolarities (signs : List Polarity) : List Sign :=
  if .neg ∈ signs ∧ .zero ∈ signs ∧ .pos ∈ signs then [.top]
  else
    (if .zero ∈ signs then [.zero] else []) ++ (if .pos ∈ signs then [.plus] else []) ++
      (if .neg ∈ signs then [.minus] else [])

/-- The elements for signs that wrap into the type when it is unsigned. -/
def gather (signed : Bool) (signs : List Polarity) : List Sign :=
  ofPolarities (if signed then signs else signs.map Polarity.abs)

/-- Outcomes without repetition, false before true. -/
def outcomes (results : List Bool) : List Bool := [false, true].filter (results.contains ·)

def arith (signed : Bool) (op : BinOp) (a b : Sign) : Except Fault (List Sign) :=
  if op.divides ∧ b = .zero then .error (.divisionByZero op)
  else
    let divisors := if op.divides then b.polarities.filter (· ≠ .zero) else b.polarities
    .ok (gather signed
      (a.polarities.flatMap fun left => divisors.flatMap fun right => Polarity.arith op left right))

def compare (op : BinOp) (a b : Sign) : List Bool :=
  outcomes
    (a.polarities.flatMap fun left => b.polarities.flatMap fun right =>
      Polarity.compare op left right)

def unary (signed : Bool) (op : UnOp) (a : Sign) : Except Fault (List Sign) :=
  match op with
  | .neg => .ok (gather signed (a.polarities.map Polarity.flip))
  | .plus => .ok (gather signed a.polarities)
  | .bitNot =>
      .ok (gather signed (a.polarities.flatMap fun sign =>
        if sign = .neg then [.zero, .pos] else [.neg]))
  | .not | .deref | .addrOf => .error (.unsupported (.notArithmetic op))

def truth (a : Sign) : List Bool := outcomes (a.polarities.map (· != .zero))

/-- Conversion between integer types. A type that contains the other keeps the
sign; otherwise a nonzero number may wrap. -/
def cast (t : Target) (source wanted : IntType) (a : Sign) : List Sign :=
  if t.minInt wanted ≤ t.minInt source ∧ t.maxInt source ≤ t.maxInt wanted then [a]
  else
    let narrowing := t.intWidth wanted.rank < t.intWidth source.rank
    ofPolarities (a.polarities.flatMap fun sign =>
      if sign = .zero then [.zero]
      else if narrowing then if wanted.signed then Polarity.all else [.zero, .pos]
      else if wanted.signed then [.neg, .pos]
      else [.pos])

def toBytes (width : Nat) (a : Sign) : BytePattern :=
  if a = .zero then .ofNat 0 width else .unknown width

def ofBytes (t : Target) (type : IntType) (bytes : BytePattern) : List Sign :=
  match (bytes.resize (t.intWidth type.rank)).toNat? with
  | some pattern => [ofInt (t.decode type pattern)]
  | none => if type.signed then [.top] else [.zero, .plus]

/-- A floating number cut to an integer: the cut may reach zero. -/
def intOfFloat (t : Target) (type : IntType) (a : Sign) : List Sign :=
  let cuts : List Sign := match a with
    | .zero => [.zero]
    | .plus => [.zero, .plus]
    | .minus => [.zero, .minus]
    | .top => [.top]
  (cuts.flatMap (cast t ⟨.longLong, true⟩ type)).eraseDups

/-- Floating operators. Division by zero has an infinite or undefined result. -/
def floatArith (op : BinOp) (a b : Sign) : Except Fault (List Sign) :=
  match op with
  | .add | .sub | .mul => arith true op a b
  | .div => if b = .zero then .ok [.top] else arith true op a b
  | _ => .error (.typeMismatch (.floatOperands op))

def floatUnary (op : UnOp) (a : Sign) : Except Fault (List Sign) :=
  match op with
  | .neg | .plus => unary true op a
  | _ => .error (.typeMismatch (.floatOperand op))

def floatOfBytes (t : Target) (kind : FloatKind) (bytes : BytePattern) : List Sign :=
  match (bytes.resize (t.floatWidth kind)).toNat? with
  | some pattern => [ofDouble (t.decodeDouble kind pattern)]
  | none => [.top]

instance : Domain Sign Sign where
  ofInt := ofInt
  known? a := if a = .zero then some 0 else none
  intText := text
  arith _ type op a b := arith type.signed op a b
  compare := compare
  unary _ type op a := unary type.signed op a
  truth := truth
  cast := cast
  toBytes t type a := a.toBytes (t.intWidth type.rank)
  ofBytes t type bytes := .ok (ofBytes t type bytes)
  ofDouble _ x := ofDouble x
  floatText := text
  fixedText := text
  floatOfInt _ a := a
  intOfFloat t type a := .ok (intOfFloat t type a)
  floatArith _ op a b := floatArith op a b
  floatCompare := compare
  floatUnary := floatUnary
  floatTruth := truth
  floatCast _ a := a
  floatToBytes t kind a := a.toBytes (t.floatWidth kind)
  floatOfBytes t kind bytes := .ok (floatOfBytes t kind bytes)

end Sign

end CoreC
