import CoreC.Proofs.Memory.Arrangement

/-! # Numbers of pointers

The number of a byte counts from the first byte of the tape, and the way back looks for the nearest
cell at or below it. The two agree for every byte of every object on a frame or on the heap, freed or
not. A number outside of all objects is given the nearest object below it and comes back too. Only
pointers to the null base are numbered apart, from zero on.
-/

namespace CoreC.Store

open Number Operation

variable {ι φ : Type} {s : Store ι φ} {base : Base} {extent : Extent}

theorem signedWord_of_lt {n : Nat} (hn : n < 2 ^ 63) : signedWord 64 n = n := by
  rw [signedWord]
  apply Int.bmod_eq_of_le <;> omega

theorem numberOf_of_allocated (hbase : base ≠ .null) (hextent : s.extents[base]? = some extent) (offset : Int) :
    s.numberOf ⟨base, offset⟩ = .ok (unsignedWord 128 (extent.first + offset)) := by
  unfold numberOf
  cases base with
  | null => exact absurd rfl hbase
  | frame | heap => simp only [hextent]

variable {cell : Cell ι φ} {number key : Nat}

theorem pointerOf_of_nearest (hpos : 0 < number) (hlt : number < 2 ^ 64)
    (hnearest : s.cells.getEntryLE? number = some (key, cell)) (size : Nat) :
    s.pointerOf number size = .pointer ⟨cell.base, signedWord 64 (cell.offset + (number - key) : Nat)⟩ size := by
  have hposition : min number (2 ^ 64 - 1) = number := by omega
  rw [pointerOf, if_neg (by omega), hposition]
  simp only [hnearest]

/-- A byte of an object other than the null object. Offsets are signed words. -/
def Points (s : Store ι φ) (address : Address) : Prop :=
  address.base ≠ .null ∧ 0 ≤ address.offset ∧ address.offset < (2 ^ 63 : Nat) ∧
    ∃ extent, s.extents[address.base]? = some extent ∧ address.offset < extent.size

/-- The number of a byte leads back to it. -/
theorem Sound.pointerOf_numberOf (hs : s.Sound) (hnext : s.next ≤ 2 ^ 64) {address : Address}
    (hpoints : s.Points address) : ∃ number ≠ 0, s.numberOf address = .ok number ∧
      ∀ size, s.pointerOf number size = .pointer address size := by
  obtain ⟨base, offset⟩ := address
  obtain ⟨hbase, hnonneg, hword, extent, hextent, hoffset⟩ := hpoints
  obtain ⟨offset, rfl⟩ := Int.eq_ofNat_of_zero_le hnonneg
  dsimp only at hextent hoffset hword
  obtain ⟨hfirst, hlast⟩ := hs.ordered.extent hextent
  obtain ⟨cells, htiles, -⟩ := hs.tiled hextent
  obtain ⟨before, key, cell, after, rfl, hkey, hle, hlt⟩ :=
    (htiles.laid hs.ordered).exists_cell (Nat.le_add_right _ offset) (by omega)
  have hentry : (key, cell) ∈ before ++ (key, cell) :: after := by simp
  have hnearest := htiles.nearest hs.ordered (show span before ≤ offset by omega) (by omega)
  obtain ⟨owner, howner, hplaced⟩ := hs.ordered.placed (htiles.chain.getElem? hentry)
  dsimp only at howner hplaced
  have hown : cell.base = base := (htiles.own _ hentry).1
  rw [hown, hextent] at howner
  cases howner
  have hplace := hplaced.offset_eq
  refine ⟨extent.first + offset, by omega, ?_, fun size => ?_⟩
  · rw [numberOf_of_allocated hbase hextent, unsignedWord]
    congr 1
    omega
  · rw [pointerOf_of_nearest (by omega) (by omega) hnearest, hown,
      show cell.offset + (extent.first + offset - key) = offset by omega, signedWord_of_lt (by omega)]

/-- The pointer to a byte is in the nearest object, and has the number of the byte unless that is the
null object. -/
theorem Sound.numberOf_pointerOf (hs : s.Sound) (hfull : Full s.cells s.next) (hpos : 0 < number)
    (hlt : number < 2 ^ 63) (hcell : s.cells[key]? = some cell) (size : Nat) :
    ∃ address, s.pointerOf number size = .pointer address size ∧ s.isAllocated address.base = true ∧
      (s.numberOf address = .ok number ↔ address.base ≠ .null) := by
  -- the first byte of the tape lies in a cell, so there is one at or below the number
  have hkey := hs.ordered.key_pos hcell
  have hsize := hs.solid hcell
  have hend := hfull.end_le hcell
  obtain ⟨least, first, hfirst, hleast, -⟩ := hfull.covers Nat.one_pos (show 1 < s.next by omega)
  obtain ⟨⟨found, nearest⟩, hnearest⟩ := exists_getEntryLE? hfirst (show least ≤ number by omega)
  have hfound := key_le_of_getEntryLE? hnearest
  obtain ⟨extent, hextent, hplaced⟩ := hs.ordered.placed (getElem?_of_getEntryLE? hnearest)
  have hplace := hplaced.offset_eq
  obtain ⟨hone, -⟩ := hs.ordered.extent hextent
  have hpointer := pointerOf_of_nearest hpos (by omega) hnearest size
  rw [signedWord_of_lt (by omega)] at hpointer
  refine ⟨_, hpointer, ?_, ?_⟩
  · rw [isAllocated, Std.TreeMap.contains_eq_isSome_getElem?, hextent]
    rfl
  · by_cases hnull : nearest.base = .null
    · apply iff_of_false _ (not_not_intro hnull)
      simp only [hnull, numberOf, unsignedWord, Except.ok.injEq]
      omega
    · apply iff_of_true _ hnull
      rw [numberOf_of_allocated hnull hextent, unsignedWord]
      congr 1
      omega

variable [DecidableEq ι] [BEq φ] [Domain ι φ]

/-- **Numbers of pointers are faithful.** Whatever operations built the store, if every unit that was
asked for takes bytes and the tape is no longer than words can count: each byte of an object other
than the null object has a number that is not zero and that leads back to it, so different bytes have
different numbers. If there is a cell at all, every positive number that a signed word can hold leads
to an object, and back to itself exactly if that is not the null object. -/
theorem numbers_lead_back (target : Target) (update : UpdatePolicy) (heap : HeapPolicy)
    (operations : List (Operation ι φ))
    (hsolid : ∀ operation ∈ operations, operation.Uses fun unit => 0 < unit.size) :
    let s := operations.foldl after (new target update heap)
    s.next ≤ 2 ^ 64 → (∀ address, s.Points address → ∃ number ≠ 0, s.numberOf address = .ok number ∧
        ∀ size, s.pointerOf number size = .pointer address size) ∧
      (∀ address other, s.Points address → s.Points other → s.numberOf address = s.numberOf other →
        address = other) ∧
      ∀ (key : Nat) cell, s.cells[key]? = some cell → ∀ number size, 0 < number → number < 2 ^ 63 →
        ∃ address, s.pointerOf number size = .pointer address size ∧ s.isAllocated address.base = true ∧
          (s.numberOf address = .ok number ↔ address.base ≠ .null) := by
  intro s hnext
  have hs : s.Sound := (sound_new target update heap).foldl operations hsolid
  have hfull : Full s.cells s.next := ((Reachable.new target update heap).foldl operations).full
  refine ⟨fun address => hs.pointerOf_numberOf hnext, fun address other haddress hother hsame => ?_,
    fun key cell hcell number size hpos hlt => hs.numberOf_pointerOf hfull hpos hlt hcell size⟩
  obtain ⟨number, -, hnumber, hback⟩ := hs.pointerOf_numberOf hnext haddress
  obtain ⟨number', -, hnumber', hback'⟩ := hs.pointerOf_numberOf hnext hother
  rw [hnumber, hnumber'] at hsame
  cases hsame
  have hpointers := (hback 0).symm.trans (hback' 0)
  cases hpointers
  rfl

/-- A byte of the freed block has a number that leads back to it, and so has a number far behind the
end of all objects. -/
theorem padded_numbered :
    let s := padded.foldl after (new .gcc .strong .concrete)
    (∀ operation ∈ padded, operation.Uses fun unit => 0 < unit.size) ∧ s.next ≤ 2 ^ 64 ∧
      (∃ number ≠ 0, s.numberOf ⟨.heap 0, 5⟩ = .ok number ∧
        s.pointerOf number 8 = .pointer ⟨.heap 0, 5⟩ 8) ∧
      ∃ address, s.pointerOf 1000 8 = .pointer address 8 ∧ s.isAllocated address.base = true ∧
        (s.numberOf address = .ok 1000 ↔ address.base ≠ .null) := by
  intro s
  have hsolid : ∀ operation ∈ padded, operation.Uses fun unit => 0 < unit.size := by
    simp [padded, Uses]
  have hnext : s.next ≤ 2 ^ 64 := by decide
  have hextent : s.extents[Base.heap 0]? = some ⟨17, 24, false⟩ := rfl
  have hpoints : s.Points ⟨.heap 0, 5⟩ := ⟨by decide, by decide, by decide, _, hextent, by decide⟩
  obtain ⟨hback, -, hforth⟩ := numbers_lead_back .gcc .strong .concrete padded hsolid hnext
  obtain ⟨number, hpos, hnumber, hpointer⟩ := hback _ hpoints
  obtain ⟨cell, hcell⟩ : ∃ cell, s.cells[1]? = some cell := ⟨_, rfl⟩
  exact ⟨hsolid, hnext, ⟨number, hpos, hnumber, hpointer 8⟩, hforth 1 cell hcell 1000 8 (by decide) (by decide)⟩

/-- Number three leads to the third byte of an object at the null base, which has number two. -/
theorem nullObject_numbered_apart :
    let operations : List (Operation Int Double) := [.allocate .null ⟨[⟨4, .int .int⟩], 1⟩]
    let s := operations.foldl after (new .gcc .strong .concrete)
    (∀ operation ∈ operations, operation.Uses fun unit => 0 < unit.size) ∧ (∃ cell, s.cells[1]? = some cell) ∧
      s.pointerOf 3 4 = .pointer ⟨.null, 2⟩ 4 ∧ s.numberOf ⟨.null, 2⟩ = .ok 2 := by
  intro operations s
  obtain ⟨cell, hnearest, hbase, hoffset⟩ : ∃ cell, s.cells.getEntryLE? 3 = some (1, cell) ∧
      cell.base = .null ∧ cell.offset = 0 := ⟨_, rfl, rfl, rfl⟩
  refine ⟨by simp [operations, Uses], ⟨cell, getElem?_of_getEntryLE? hnearest⟩, ?_, rfl⟩
  rw [pointerOf_of_nearest (by decide) (by decide) hnearest, hbase, hoffset, signedWord_of_lt (by decide)]
  rfl

end CoreC.Store
