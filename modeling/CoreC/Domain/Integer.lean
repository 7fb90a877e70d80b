import CoreC.Fault

/-! # Integers of a target

Reduction into the range of a type, bit patterns, and the C operators on exact
integers. Intermediate results are 128-bit words.
-/

namespace CoreC.Target

open Number

/-- Bits of the words that intermediate results are kept in. -/
def workingBits : Nat := 128

def span (t : Target) (type : IntType) : Int := t.maxInt type - t.minInt type + 1

/-- The value of the type that differs from `n` by a multiple of the span. -/
def reduce (t : Target) (type : IntType) (n : Int) : Int :=
  (n - t.minInt type) % t.span type + t.minInt type

def encode (t : Target) (type : IntType) (n : Int) : Nat :=
  if 0 ≤ n then n.toNat
  else
    match t.complement with
    | .twos => unsignedWord workingBits (n + 2 ^ t.intBits type.rank)
    | .ones => unsignedWord workingBits (n + 2 ^ t.intBits type.rank - 1)

/-- Value of a bit pattern; bits beyond the width of the type are ignored. -/
def decode (t : Target) (type : IntType) (pattern : Nat) : Int :=
  let modulus : Nat := 2 ^ t.intBits type.rank
  let raw := pattern % modulus
  if !type.signed || 2 * raw < modulus then raw
  else
    match t.complement with
    | .twos => (raw : Int) - modulus
    | .ones => (raw : Int) - (modulus - 1)

/-- The C operators on two values of a type, wrapped into the type. -/
def arith (t : Target) (type : IntType) (op : BinOp) (a b : Int) : Except Fault Int :=
  let bits := t.intBits type.rank
  let finish (n : Int) : Except Fault Int := .ok (t.reduce type (signedWord workingBits n))
  match op with
  | .add => finish (a + b)
  | .sub => finish (a - b)
  | .mul => finish (a * b)
  | .div => if b = 0 then .error (.divisionByZero .div) else finish (a.tdiv b)
  | .mod => if b = 0 then .error (.divisionByZero .mod) else finish (a.tmod b)
  | .bitAnd => finish (bitAnd a b)
  | .bitOr => finish (bitOr a b)
  | .bitXor => finish (bitXor a b)
  | .shl =>
      if b < 0 ∨ bits ≤ b then .error (.unsupported (.shiftCount b bits))
      else finish (a * 2 ^ b.toNat)
  | .shr =>
      if b < 0 ∨ bits ≤ b then .error (.unsupported (.shiftCount b bits))
      else finish (a / 2 ^ b.toNat)
  | .eq | .ne | .lt | .le | .gt | .ge => .error (.unsupported (.relationalArithmetic op))

/-- The C operators on one value of a type, wrapped into the type. -/
def arithUnary (t : Target) (type : IntType) (op : UnOp) (a : Int) : Except Fault Int :=
  match op with
  | .neg => .ok (t.reduce type (signedWord workingBits (-a)))
  | .plus => .ok a
  | .bitNot => .ok (t.reduce type (bitNot a))
  | .not | .deref | .addrOf => .error (.unsupported (.notArithmetic op))

end CoreC.Target
