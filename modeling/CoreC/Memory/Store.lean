import CoreC.Memory.Heap
import CoreC.Memory.Layout
import CoreC.Value.Operation

/-! # The store

Memory is a tape of cells, one per unit of an allocated object. A cell is named by
the number of its first byte; numbering starts at one, so that zero can mean the
null pointer and the missing neighbour. The cells of an object are linked in both
directions, so that memory can be walked without knowing what was allocated.

An access that meets a cell exactly and has its representation is served by the cell.
Any other access goes byte by byte through as many cells as it covers; a write of
that kind packs each touched cell anew from its old bytes and the new ones.

A cell holds a set of values. A strong write replaces it; a weak one, and every write
to a summary, adds to it.
-/

namespace CoreC

/-- The name of no cell. -/
def noCell : Nat := 0

/-- One unit of an allocated object. -/
structure Cell (ι φ : Type) where
  base : Base
  /-- Bytes of the object before the cell. -/
  offset : Nat
  size : Nat
  scalar : Scalar
  contents : ValueSet ι φ
  pred : Nat
  succ : Nat

structure Extent where
  first : Nat
  size : Nat
  /-- Whether the object stands for more than one. -/
  summary : Bool
  deriving DecidableEq

structure Store (ι φ : Type) where
  target : Target
  update : UpdatePolicy
  cells : Std.TreeMap Nat (Cell ι φ)
  extents : Std.TreeMap Base Extent
  /-- Number of the first byte not yet taken. -/
  next : Nat
  heap : Heap
  /-- Grows whenever the contents of memory change. -/
  generation : Nat

/-- An operation that may change the store and may fail, keeping what it changed. -/
abbrev StoreM (ι φ : Type) := EStateM Fault (Store ι φ)

namespace Store

/-- Most byte patterns that one access may have to consider. -/
def maxPatterns : Nat := 64

variable {ι φ : Type}

def new (target : Target) (update : UpdatePolicy) (heap : HeapPolicy) : Store ι φ where
  target := target
  update := update
  cells := ∅
  extents := ∅
  next := 1
  heap := Heap.new heap
  generation := 0

def isAllocated (s : Store ι φ) (base : Base) : Bool := s.extents.contains base

def size? (s : Store ι φ) (base : Base) : Option Nat := s.extents[base]?.map (·.size)

def isSummary (s : Store ι φ) (base : Base) : Bool :=
  let marked := s.extents[base]?.any (·.summary)
  match base with
  | .heap id => marked || s.heap.isSummary id
  | _ => marked

def markSummary (s : Store ι φ) (base : Base) : Store ι φ :=
  { s with extents := s.extents.modify base ({ · with summary := true }) }

/-- Appends the cells of an object. `previous` is the cell before the first unit.
Returns the cells and the numbers of bytes taken on the tape and by the object. -/
def appendCells (base : Base) : List StorageUnit → Std.TreeMap Nat (Cell ι φ) → Nat → Nat → Nat →
    Std.TreeMap Nat (Cell ι φ) × Nat × Nat
  | [], cells, next, offset, _ => (cells, next, offset)
  | unit :: rest, cells, next, offset, previous =>
      let fresh : Cell ι φ :=
        { base, offset, size := unit.size, scalar := unit.scalar
          contents := .singleton (.uninitialized unit.scalar), pred := previous, succ := noCell }
      let linked := (cells.insert next fresh).modify previous ({ · with succ := next })
      appendCells base rest linked (next + unit.size) (offset + unit.size) next

/-- Allocates an object. One that exists already becomes a summary and keeps its
cells. -/
def allocate (base : Base) (layout : Layout) : StoreM ι φ Address := fun s =>
  if s.isAllocated base then .ok ⟨base, 0⟩ (s.markSummary base)
  else if layout.units.isEmpty ∨ layout.count = 0 then
    .error (.unsupported .zeroSizedObject) s
  else
    let (cells, next, size) := appendCells base layout.flatten s.cells s.next 0 noCell
    .ok ⟨base, 0⟩
      { s with cells, next, extents := s.extents.insert base ⟨s.next, size, false⟩ }

structure Place (ι φ : Type) where
  key : Nat
  cell : Cell ι φ
  within : Nat

/-- The cell that holds the byte at an address. -/
def locate (s : Store ι φ) (address : Address) : Except Fault (Place ι φ) := do
  match address.base with
  | .null => .error (.memory (.nullDereference address))
  | .heap id => let _ ← s.heap.liveBlock id
  | .frame .. => pure ()
  match s.extents[address.base]? with
  | none => .error (.memory (.unallocatedAccess address))
  | some extent =>
      if address.offset < 0 ∨ extent.size ≤ address.offset then
        .error (.memory (.outOfBounds address))
      else
        let position := extent.first + address.offset.toNat
        match s.cells.getEntryLE? position with
        | some (key, cell) => .ok ⟨key, cell, position - key⟩
        | none => .error (.memory (.unallocatedAccess address))

def cell (s : Store ι φ) (key : Nat) : Except Fault (Cell ι φ) :=
  match s.cells[key]? with
  | some cell => .ok cell
  | none => .error (.memory (.danglingCell key))

/-- Number of the byte that an address stands for, as a 128-bit word. -/
def numberOf (s : Store ι φ) (address : Address) : Except Fault Nat :=
  match address.base with
  | .null => .ok (Number.unsignedWord 128 address.offset)
  | base =>
      match s.extents[base]? with
      | some extent => .ok (Number.unsignedWord 128 (extent.first + address.offset))
      | none => .error (.memory (.unallocatedPointer address))

/-- The pointer to the byte of a given number: the nearest cell at or below it and the
distance from there. Zero is the null pointer. -/
def pointerOf (s : Store ι φ) (number pointeeSize : Nat) : Value ι φ :=
  if number = 0 then .null pointeeSize
  else
    let position := min number (2 ^ 64 - 1)
    match s.cells.getEntryLE? position with
    | some (key, cell) =>
        let offset := Number.signedWord 64 (cell.offset + (position - key) : Nat)
        .pointer ⟨cell.base, offset⟩ pointeeSize
    | none => .pointer ⟨.null, Number.signedWord 64 position⟩ pointeeSize

variable [DecidableEq ι] [BEq φ] [Domain ι φ]

/-- A stored value seen through a compatible representation. -/
def retag (scalar : Scalar) (v : Value ι φ) : Value ι φ :=
  match v, scalar with
  | .pointer address _, .pointer pointeeSize => .pointer address pointeeSize
  | .uninitialized _, scalar => .uninitialized scalar
  | v, _ => v

/-- Bytes of a stored value, brought to `size`. -/
def valueBytes (s : Store ι φ) (size : Nat) (v : Value ι φ) : Except Fault BytePattern :=
  match v.bytes? s.target, v with
  | some bytes, _ => .ok (bytes.resize size)
  | none, .pointer address _ =>
      (s.numberOf address).map fun number => (BytePattern.ofNat number s.target.wordWidth).resize size
  | none, v => .error (.unsupported (.byteAccess v.text))

def decode (s : Store ι φ) (scalar : Scalar) (bytes : BytePattern) :
    Except Fault (ValueSet ι φ) :=
  match Value.ofBytes? s.target scalar bytes, scalar with
  | some result, _ => result
  | none, .pointer pointeeSize => do
      let numbers ← (bytes.resize s.target.wordWidth).enumerate maxUnknownBits
      return .ofList (numbers.map fun number => s.pointerOf number pointeeSize)
  | none, _ => .error (.unsupported .byteAccessFunction)

/-- Steps that suffice for an access of `length` bytes: one per byte, and one per cell
that may take no bytes. -/
def accessFuel (s : Store ι φ) (length : Nat) : Nat := length + s.cells.size + 1

/-- Byte patterns that the cell may show from `within` on. -/
def cellBytes (s : Store ι φ) (cell : Cell ι φ) (within length : Nat) :
    Except Fault (List BytePattern) := do
  let patterns ← cell.contents.items.mapM (s.valueBytes cell.size)
  return (patterns.map fun bytes => bytes.slice within length).eraseDups

/-- Extends byte patterns by `remaining` bytes, read from a place onward. -/
def collectBytes (s : Store ι φ) (address : Address) : Nat → Nat → Nat → Nat →
    List BytePattern → Except Fault (List BytePattern)
  | _, _, _, 0, patterns => .ok patterns
  | 0, _, _, _, _ => .error (.memory (.readPastEnd address))
  | fuel + 1, key, within, remaining, patterns =>
      if key = noCell then .error (.memory (.readPastEnd address))
      else do
        let cell ← s.cell key
        let taken := min (cell.size - within) remaining
        let pieces ← s.cellBytes cell within taken
        let extended := patterns.flatMap fun pattern => pieces.map (pattern ++ ·)
        if maxPatterns < extended.length then .error (.unsupported (.bytePatterns maxPatterns))
        else s.collectBytes address fuel cell.succ 0 (remaining - taken) extended

def read (s : Store ι φ) (address : Address) (scalar : Scalar) : Except Fault (ValueSet ι φ) := do
  let place ← s.locate address
  if place.within = 0 ∧ place.cell.scalar.compatible scalar then
    return .ofList (place.cell.contents.items.map (retag scalar))
  else
    let length := scalar.size s.target
    let patterns ←
      s.collectBytes address (s.accessFuel length) place.key place.within length [[]]
    patterns.foldlM (fun values bytes => (s.decode scalar bytes).map values.union) .empty

/-- Contents of a cell after a write: a weak write keeps the old values, unless none
was ever written. -/
def merge (weak : Bool) (old fresh : ValueSet ι φ) : ValueSet ι φ :=
  if weak ∧ !old.allUninitialized then old.union fresh else fresh

/-- Contents of a cell with the bytes from `within` on replaced. -/
def patchCell (s : Store ι φ) (cell : Cell ι φ) (within : Nat) (patches : List BytePattern) :
    Except Fault (ValueSet ι φ) :=
  cell.contents.flatMap fun old => do
    let bytes ← s.valueBytes cell.size old
    patches.foldlM (fun values patch =>
      (s.decode cell.scalar (bytes.orZero.splice within patch)).map values.union) .empty

/-- New contents of the cells that a byte-wise write touches. `consumed` bytes of the
patches are written already. -/
def repack (s : Store ι φ) (address : Address) (weak : Bool) (patches : List BytePattern)
    (length : Nat) : Nat → Nat → Nat → Nat → Except Fault (List (Nat × ValueSet ι φ))
  | 0, _, _, consumed =>
      if consumed < length then .error (.memory (.writePastEnd address)) else .ok []
  | fuel + 1, key, within, consumed =>
      if length ≤ consumed then .ok []
      else if key = noCell then .error (.memory (.writePastEnd address))
      else do
        let cell ← s.cell key
        let taken := min (cell.size - within) (length - consumed)
        let contents ← s.patchCell cell within (patches.map fun bytes => bytes.slice consumed taken)
        let rest ← s.repack address weak patches length fuel cell.succ 0 (consumed + taken)
        return (key, merge weak cell.contents contents) :: rest

/-- Installs new contents. Cells whose contents stay the same are left alone. -/
def install : List (Nat × ValueSet ι φ) → Std.TreeMap Nat (Cell ι φ) → Bool →
    Std.TreeMap Nat (Cell ι φ) × Bool
  | [], cells, changed => (cells, changed)
  | (key, contents) :: rest, cells, changed =>
      match cells[key]? with
      | some cell =>
          if cell.contents.same contents then install rest cells changed
          else install rest (cells.insert key { cell with contents }) true
      | none => install rest cells changed

/-- Installs new contents and counts a change of memory as one. -/
def commit (s : Store ι φ) (updates : List (Nat × ValueSet ι φ)) : Store ι φ :=
  let (cells, changed) := install updates s.cells false
  if changed then { s with cells, generation := s.generation + 1 } else s

def updates (s : Store ι φ) (address : Address) (values : ValueSet ι φ) (scalar : Scalar)
    (forceWeak : Bool) : Except Fault (List (Nat × ValueSet ι φ)) := do
  let place ← s.locate address
  let weak := forceWeak || s.update = .weak || s.isSummary address.base
  let length := scalar.size s.target
  if place.within = 0 ∧ place.cell.scalar.compatible scalar ∧
      place.cell.scalar.size s.target = length then
    let fresh := ValueSet.ofList (values.items.map (retag place.cell.scalar))
    return [(place.key, merge weak place.cell.contents fresh)]
  else
    let patches ← values.items.mapM (s.valueBytes length)
    s.repack address weak patches length (s.accessFuel length) place.key place.within 0

def write (address : Address) (values : ValueSet ι φ) (scalar : Scalar) (forceWeak : Bool) :
    StoreM ι φ PUnit := fun s =>
  match s.updates address values scalar forceWeak with
  | .ok updates => .ok ⟨⟩ (s.commit updates)
  | .error fault => .error fault s

/-- Walks from a byte position relative to a cell until the position lies in the cell
at hand. -/
def walk (s : Store ι φ) (address : Address) : Nat → Nat → Int → Except Fault PUnit
  | 0, _, _ => .error (.memory (.movedPastEnd address))
  | fuel + 1, key, position => do
      let cell ← s.cell key
      if position < 0 then
        if cell.pred = noCell then .error (.memory (.movedBeforeStart address))
        else
          let before ← s.cell cell.pred
          s.walk address fuel cell.pred (position + Number.displacement before.size)
      else if Number.displacement cell.size ≤ position then
        if cell.succ = noCell then .error (.memory (.movedPastEnd address))
        else s.walk address fuel cell.succ (position - Number.displacement cell.size)
      else return ⟨⟩

/-- Moves a pointer through the cells of its object. Leaving the object on either side
is a fault. A pointer one past the end may be moved back inside. -/
def movePointer (s : Store ι φ) (address : Address) (delta : Int) : Except Fault Address := do
  let pastEnd := s.extents[address.base]?.any fun extent =>
    0 < address.offset && address.offset = extent.size
  let place ← s.locate (if pastEnd then address.shift (-1) else address)
  let start : Int := if pastEnd then place.within + 1 else place.within
  s.walk address (s.cells.size + (start + delta).natAbs + 2) place.key (start + delta)
  return address.shift delta

def malloc (site : NodeId) (layout : Layout) : StoreM ι φ Address := do
  let s ← get
  let ((id, fresh), heap) := s.heap.allocate site layout.size .malloc
  set { s with heap }
  if fresh then allocate (.heap id) layout
  else
    modify (markSummary · (.heap id))
    return ⟨.heap id, 0⟩

/-- Writes bytes as characters from an address on, one after the other. -/
def writeChars (address : Address) (type : IntType) (step : Nat) : List UInt8 → Nat → StoreM ι φ PUnit
  | [], _ => pure ⟨⟩
  | byte :: rest, index => do
      let s ← get
      let value := Value.ofInt s.target type (Number.signedWord 8 byte.toNat)
      write (address.shift (index * step : Nat)) (.singleton value) (.int type) false
      writeChars address type step rest (index + 1)

/-- Makes a string literal an array of characters that ends in a zero. -/
def literal (site : NodeId) (text : List UInt8) : StoreM ι φ Address := do
  let s ← get
  let width := s.target.intWidth .char
  let ((id, fresh), heap) := s.heap.allocate site (text.length + 1) .literal
  set { s with heap }
  if fresh then
    let _ ← allocate (.heap id) ⟨[⟨width, .int .char⟩], text.length + 1⟩
    writeChars ⟨.heap id, 0⟩ .char width (text ++ [0]) 0
  return ⟨.heap id, 0⟩

/-- Frees the heap block that starts at an address. Freeing the null pointer does
nothing. -/
def free (address : Address) : StoreM ι φ PUnit := fun s =>
  match address.base with
  | .heap id =>
      if address.offset ≠ 0 then .error (.memory (.freeInsideBlock address)) s
      else if !s.isAllocated address.base then .error (.memory (.freeUnallocated address)) s
      else
        match s.heap.free id with
        | .ok heap => .ok ⟨⟩ { s with heap, generation := s.generation + 1 }
        | .error fault => .error fault s
  | .null =>
      if address.offset = 0 then .ok ⟨⟩ s else .error (.memory (.freeForeign address)) s
  | .frame .. => .error (.memory (.freeForeign address)) s

/-- What a cell holds after its bytes were cleared. -/
def zeroContents (s : Store ι φ) (cell : Cell ι φ) : Except Fault (ValueSet ι φ) :=
  match cell.scalar with
  | .function => .ok (.singleton (.null 1))
  | scalar => s.decode scalar (.zeros cell.size)

/-- Cleared contents of the cells from `key` to the end of the object. -/
def zeroUpdates (s : Store ι φ) : Nat → Nat → Except Fault (List (Nat × ValueSet ι φ))
  | 0, key => .error (.unsupported (.unitCycle key))
  | fuel + 1, key =>
      if key = noCell then .ok []
      else do
        let cell ← s.cell key
        let contents ← s.zeroContents cell
        let rest ← s.zeroUpdates fuel cell.succ
        return (key, contents) :: rest

def zeroFill (base : Base) : StoreM ι φ PUnit := fun s =>
  match s.extents[base]? with
  | none => .error (.memory .zeroFillUnallocated) s
  | some extent =>
      match s.zeroUpdates (s.cells.size + 1) extent.first with
      | .ok updates => .ok ⟨⟩ (s.commit updates)
      | .error fault => .error fault s

end Store

end CoreC
