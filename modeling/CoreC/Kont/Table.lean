import CoreC.Kont.Basic
import Std.Data.TreeSet

/-! # Stored continuations -/

namespace CoreC

/-- The continuations of a run by address, those of one address in the order in which
they came. -/
structure KontTable where
  slots : Std.TreeMap KontAddress (List Continuation)

namespace KontTable

def empty : KontTable := ⟨∅⟩

/-- Stores a continuation, beside those at the address if `merge` and in their place
otherwise. -/
def write (t : KontTable) (address : KontAddress) (kont : Continuation) (merge : Bool) : KontTable :=
  let held := if merge then t.slots.getD address [] else []
  ⟨t.slots.insert address (if kont ∈ held then held else held ++ [kont])⟩

def read (t : KontTable) (address : KontAddress) : Except Fault (List Continuation) :=
  match t.slots[address]? with
  | some konts => .ok konts
  | none => .error (.unsupported (.noContinuation address))

def size (t : KontTable) : Nat := t.slots.size

/-- Adds to `live` the addresses of a stack and all that they lead to. Addresses are
taken off the stack one by one, and those of a slot are put on it once. -/
def mark (t : KontTable) : Nat → List KontAddress → Std.TreeSet KontAddress →
    Std.TreeSet KontAddress
  | _, [], live => live
  | 0, _ :: _, live => live
  | fuel + 1, address :: rest, live =>
      if address = halt ∨ live.contains address then t.mark fuel rest live
      else
        let parents := (t.slots.getD address []).map (·.parent)
        t.mark fuel (parents ++ rest) (live.insert address)

def live (t : KontTable) (roots : List KontAddress) : Std.TreeSet KontAddress :=
  let stored := t.slots.foldl (fun total _ konts => total + konts.length) 0
  t.mark (roots.length + stored) roots ∅

/-- Drops the continuations that no root leads to. -/
def sweep (t : KontTable) (roots : List KontAddress) : KontTable :=
  let live := t.live roots
  ⟨t.slots.filter fun address _ => live.contains address⟩

def dropped (t : KontTable) (roots : List KontAddress) : Nat := t.size - (t.sweep roots).size

end KontTable

end CoreC
