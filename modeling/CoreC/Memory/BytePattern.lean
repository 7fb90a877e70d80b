import CoreC.Fault

/-! # Byte patterns

The bytes of a stored value, lowest first, as far as they are known: each byte is
either never written, or has a mask of known bits. A pattern stands for every
number that agrees with it on the known bits.
-/

namespace CoreC

/-- One byte. The bits outside `mask` are unknown. -/
inductive PartialByte where
  | uninitialized
  | bits (value mask : UInt8)
  deriving DecidableEq

namespace PartialByte

def exact (value : UInt8) : PartialByte := .bits value 0xff

/-- A written byte with no bit known. -/
def unknown : PartialByte := .bits 0 0

def isInitialized : PartialByte → Bool
  | .uninitialized => false
  | .bits .. => true

def isExact : PartialByte → Bool
  | .uninitialized => false
  | .bits _ mask => mask = 0xff

/-- The known one-bits, as a number. -/
def known : PartialByte → Nat
  | .uninitialized => 0
  | .bits value mask => (value &&& mask).toNat

/-- Positions of the unknown bits, lowest first. -/
def unknownBits : PartialByte → List Nat
  | .uninitialized => List.range 8
  | .bits _ mask => (List.range 8).filter fun bit => !mask.toNat.testBit bit

/-- The byte itself, or a known zero when it was never written. -/
def orZero : PartialByte → PartialByte
  | .uninitialized => exact 0
  | byte => byte

end PartialByte

/-- Bytes in memory order, the lowest one first. -/
abbrev BytePattern := List PartialByte

namespace BytePattern

def ofNat (n length : Nat) : BytePattern :=
  match length with
  | 0 => []
  | length + 1 => .exact (UInt8.ofNat n) :: ofNat (n / 256) length

def zeros (length : Nat) : BytePattern := List.replicate length (.exact 0)

def unknown (length : Nat) : BytePattern := List.replicate length .unknown

def uninitialized (length : Nat) : BytePattern := List.replicate length .uninitialized

def isInitialized (p : BytePattern) : Bool := p.all PartialByte.isInitialized

def isExact (p : BytePattern) : Bool := p.all PartialByte.isExact

def known : BytePattern → Nat
  | [] => 0
  | byte :: rest => byte.known + 256 * known rest

def unknownBits : BytePattern → List Nat
  | [] => []
  | byte :: rest => byte.unknownBits ++ (unknownBits rest).map (8 + ·)

def unknownCount (p : BytePattern) : Nat :=
  p.foldr (fun byte bits => byte.unknownBits.length + bits) 0

/-- Patterns longer than this are not read as numbers. -/
def maxLength : Nat := 16

def toNat? (p : BytePattern) : Option Nat :=
  if isExact p && p.length ≤ maxLength then some (known p) else none

/-- The number whose one-bits are those of `choice`, moved to the given positions. -/
def scatter : List Nat → Nat → Nat
  | [], _ => 0
  | position :: rest, choice => (choice % 2) * 2 ^ position + scatter rest (choice / 2)

/-- Every number that the pattern stands for, when at most `limit` bits are unknown. -/
def enumerate (p : BytePattern) (limit : Nat) : Except Fault (List Nat) :=
  if !isInitialized p then .error (.uninitialized .bytePattern)
  else if maxLength < p.length then .error (.unsupported .widePattern)
  else
    let free := unknownBits p
    if limit < free.length then .error (.unsupported (.unknownBits free.length))
    else .ok ((List.range (2 ^ free.length)).map fun choice => known p + scatter free choice)

/-- Cuts the pattern to `length` bytes, or fills it up with zeros. -/
def resize (p : BytePattern) (length : Nat) : BytePattern :=
  p.take length ++ zeros (length - p.length)

/-- The `length` bytes from `offset` on; past the end they are zero. -/
def slice (p : BytePattern) (offset length : Nat) : BytePattern :=
  resize (p.drop offset) length

/-- The pattern with `patch` written over it at `offset`, as far as it reaches. -/
def splice (p : BytePattern) (offset : Nat) (patch : BytePattern) : BytePattern :=
  p.take offset ++ patch.take (p.length - offset) ++ p.drop (offset + patch.length)

def orZero (p : BytePattern) : BytePattern := p.map PartialByte.orZero

end BytePattern

end CoreC
