import CoreC.Settings
import CoreC.Program.Construct

/-! # Heap blocks

The life of every heap block and string literal. A freed block keeps its entry, so
that a later use is told apart from an address that never existed. Under the
abstract policy one site owns one block; allocating it again makes the block a
summary of all that the site produced.
-/

namespace CoreC

inductive BlockKind where
  | malloc
  | literal
  deriving DecidableEq

structure HeapBlock where
  size : Nat
  live : Bool
  kind : BlockKind
  site : NodeId
  /-- Whether the block stands for more than one. -/
  summary : Bool
  deriving DecidableEq

structure Heap where
  policy : HeapPolicy
  blocks : Array HeapBlock
  /-- Blocks by kind and site, under the abstract policy. -/
  bySite : List ((BlockKind × NodeId) × Nat)

namespace Heap

def new (policy : HeapPolicy) : Heap := ⟨policy, #[], []⟩

/-- The block that a site already owns under the abstract policy. -/
def owned? (h : Heap) (site : NodeId) (kind : BlockKind) : Option Nat :=
  match h.policy with
  | .concrete => none
  | .abstract => h.bySite.lookup (kind, site)

/-- A block that serves one more request. -/
def reuse (block : HeapBlock) (size : Nat) : HeapBlock :=
  { block with summary := true, live := true, size := max block.size size }

/-- Allocates a block. Returns its number and whether it is new. -/
def allocate (h : Heap) (site : NodeId) (size : Nat) (kind : BlockKind) : (Nat × Bool) × Heap :=
  match h.owned? site kind with
  | some id => ((id, false), { h with blocks := h.blocks.modify id (reuse · size) })
  | none =>
      let id := h.blocks.size
      let bySite := match h.policy with
        | .concrete => h.bySite
        | .abstract => ((kind, site), id) :: h.bySite
      ((id, true), { h with blocks := h.blocks.push ⟨size, true, kind, site, false⟩, bySite })

/-- Frees a block. A summary stays, as it may have live members. -/
def free (h : Heap) (id : Nat) : Except Fault Heap :=
  match h.blocks[id]? with
  | none => .error (.memory (.freeUnknownBlock id))
  | some block =>
      if block.kind = .literal then .error (.memory .freeLiteral)
      else if block.summary then .ok h
      else if block.live then
        .ok { h with blocks := h.blocks.modify id ({ · with live := false }) }
      else .error (.memory (.doubleFree id))

def liveBlock (h : Heap) (id : Nat) : Except Fault HeapBlock :=
  match h.blocks[id]? with
  | none => .error (.memory (.neverAllocated id))
  | some block => if block.live then .ok block else .error (.memory (.useAfterFree id))

def isSummary (h : Heap) (id : Nat) : Bool := h.blocks[id]?.any (·.summary)

/-- Number of blocks allocated and not freed, literals aside. -/
def liveCount (h : Heap) : Nat := h.blocks.countP fun block => block.live && block.kind = .malloc

end Heap

end CoreC
