import CoreC.Fault

/-! # Reports -/

namespace CoreC

structure Report where
  output : String
  memorySafe : Bool
  fault : Option Fault
  returned : Option String
  generated : Nat
  matched : Nat
  evaluated : Nat
  deriving DecidableEq

namespace Report

def ofFault (fault : Fault) : Report := ⟨"", !fault.isMemoryFault, some fault, none, 0, 0, 0⟩

/-- Process status: zero after a run without fault. -/
def exitCode (r : Report) : Nat := r.fault.elim 0 Fault.exitCode

end Report

end CoreC
