import CoreC.Number.Decimal

/-! # JSON values

Numbers keep how they were written: an integer literal, or a literal with a
fraction or an exponent. Objects keep their members in order, repetitions
included.
-/

namespace CoreC

/-- A number literal: sign, decimal, and whether it was written as an integer. -/
structure Numeral where
  negative : Bool
  decimal : Decimal
  integral : Bool
  deriving DecidableEq

namespace Numeral

def ofNat (n : Nat) : Numeral := ⟨false, ⟨n, 0⟩, true⟩

def ofInt (n : Int) : Numeral := ⟨decide (n < 0), ⟨n.natAbs, 0⟩, true⟩

def ofDouble (x : Double) : Numeral := ⟨x.negative, Decimal.ofDouble x, false⟩

/-- The unsigned 64-bit integer written; minus zero is not one. -/
def toNat? (n : Numeral) : Option Nat :=
  if n.integral && !n.negative && n.decimal.digits < 2 ^ 64 then some n.decimal.digits else none

/-- The signed 64-bit integer written; minus zero is not one. -/
def toInt? (n : Numeral) : Option Int :=
  if !n.integral then none
  else if n.negative then
    if 0 < n.decimal.digits && n.decimal.digits ≤ 2 ^ 63 then some (-(n.decimal.digits : Int))
    else none
  else if n.decimal.digits < 2 ^ 63 then some n.decimal.digits
  else none

/-- The double nearest to the number, when it does not overflow. -/
def toDouble? (n : Numeral) : Option Double :=
  let x := n.decimal.toDouble n.negative
  if x.isFinite then some x else none

end Numeral

inductive Json where
  /-- A string that holds half a character, or an object with such a name. It may stand
  where nobody looks at it, and decodes as nothing. -/
  | garbled
  | null
  | bool (value : Bool)
  | num (value : Numeral)
  | str (value : String)
  | arr (items : List Json)
  | obj (members : List (String × Json))

namespace Json

def ofNat (n : Nat) : Json := .num (Numeral.ofNat n)

def ofInt (n : Int) : Json := .num (Numeral.ofInt n)

/-- A finite double as a number, anything else as null. -/
def ofDouble (x : Double) : Json := if x.isFinite then .num (Numeral.ofDouble x) else .null

def ofOption {α : Type} (encode : α → Json) : Option α → Json
  | none => .null
  | some a => encode a

def ofList {α : Type} (encode : α → Json) (items : List α) : Json := .arr (items.map encode)

def toNat? : Json → Option Nat
  | .num n => n.toNat?
  | _ => none

def toInt? : Json → Option Int
  | .num n => n.toInt?
  | _ => none

def toDouble? : Json → Option Double
  | .num n => n.toDouble?
  | _ => none

def toBool? : Json → Option Bool
  | .bool b => some b
  | _ => none

def toString? : Json → Option String
  | .str s => some s
  | _ => none

def toList? {α : Type} (decode : Json → Option α) : Json → Option (List α)
  | .arr items => items.mapM decode
  | _ => none

def member? (name : String) : Json → Option Json
  | .obj members => members.lookup name
  | _ => none

end Json

end CoreC
