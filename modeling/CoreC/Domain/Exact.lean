import CoreC.Domain.Basic

/-! # The exact domain

Integers and doubles as they are. Every operation has one outcome, except that
bytes with few unknown bits stand for every integer they may be.
-/

namespace CoreC.Exact

def round (kind : FloatKind) (x : Double) : Double :=
  match kind with
  | .float => x.roundToSingle
  | .double | .longDouble => x

def ofBytes (t : Target) (type : IntType) (bytes : BytePattern) : Except Fault (List Int) := do
  let patterns ← (bytes.resize (t.intWidth type.rank)).enumerate maxUnknownBits
  return (patterns.map (t.decode type)).eraseDups

/-- A double cut to an integer type. The cut number is clamped to the working width
before it is reduced into the type. -/
def intOfFloat (t : Target) (type : IntType) (x : Double) : Except Fault (List Int) :=
  if x.isFinite then
    let limit : Int := 2 ^ (Target.workingBits - 1)
    .ok [t.reduce type (max (-limit) (min (limit - 1) x.truncate))]
  else .error (.unsupported (.floatConversion x.text type))

def floatArith (kind : FloatKind) (op : BinOp) (x y : Double) : Except Fault (List Double) :=
  match op with
  | .add => .ok [round kind (x.add y)]
  | .sub => .ok [round kind (x.sub y)]
  | .mul => .ok [round kind (x.mul y)]
  | .div => .ok [round kind (x.div y)]
  | _ => .error (.typeMismatch (.floatOperands op))

def floatUnary (op : UnOp) (x : Double) : Except Fault (List Double) :=
  match op with
  | .neg => .ok [x.neg]
  | .plus => .ok [x]
  | _ => .error (.typeMismatch (.floatOperand op))

def floatOfBytes (t : Target) (kind : FloatKind) (bytes : BytePattern) :
    Except Fault (List Double) :=
  match (bytes.resize (t.floatWidth kind)).toNat? with
  | some pattern => .ok [t.decodeDouble kind pattern]
  | none => .error (.unsupported .floatUnknownBits)

instance : Domain Int Double where
  ofInt n := n
  known? n := some n
  intText n := toString n
  arith t type op a b := (t.arith type op a b).map ([·])
  compare op a b := [op.holds (some (compare a b))]
  unary t type op a := (t.arithUnary type op a).map ([·])
  truth a := [a != 0]
  cast t _ wanted a := [t.reduce wanted a]
  toBytes t type a := .ofNat (t.encode type a) (t.intWidth type.rank)
  ofBytes := ofBytes
  ofDouble := round
  floatText x := x.text
  fixedText x := x.fixedText 6
  floatOfInt kind a := round kind (Double.ofInt a)
  intOfFloat := intOfFloat
  floatArith := floatArith
  floatCompare op x y := [op.holds (x.compare? y)]
  floatUnary := floatUnary
  floatTruth x := [x != .zero]
  floatCast := round
  floatToBytes t kind x := t.encodeDouble kind x
  floatOfBytes := floatOfBytes

end CoreC.Exact
