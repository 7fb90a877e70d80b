import CoreC.Proofs.Memory.FlatMemory
import CoreC.Proofs.Memory.Numbering
import CoreC.Proofs.Memory.Retention

/-! # Round trips through a fresh object

An integer written to a fresh object and read back through the same type comes back as it is
when it met a unit of its own type, or when every unit that it was packed into has room for its
share of the bytes. A union has the class of one member and the size of the largest, and padding
belongs to the unit before it: such a unit has bytes that it has no room for.
-/

namespace CoreC

open BytePattern StorageUnit Target List Number Scalar

namespace Store

variable {s : Store Int Double}

section Pointers

/-- A word and the integer it was cut from have the same low bytes. -/
theorem unsignedWord_mod (n : Int) :
    (unsignedWord 128 n : Int) % (2 ^ 64 : Nat) = n % (2 ^ 64 : Nat) := by
  rw [unsignedWord]
  omega

theorem signedWord_mod (n : Int) : signedWord 64 n % (2 ^ 64 : Nat) = n % (2 ^ 64 : Nat) := by
  have hcut := Int.bmod_emod (x := n) (m := 2 ^ 64)
  exact hcut

/-- The pointer to a byte has the number of that byte. -/
theorem numberOf_pointerOf (hordered : s.Ordered) (hnull : s.extents[Base.null]? = none) {number : Nat}
    (hnumber : number < 2 ^ 64) (pointeeSize : Nat) :
    ∃ address found, s.pointerOf number pointeeSize = .pointer address pointeeSize ∧
      s.numberOf address = .ok found ∧ found % 2 ^ 64 = number := by
  by_cases hzero : number = 0
  · rw [pointerOf, if_pos hzero]
    exact ⟨.null, 0, rfl, rfl, hzero.symm⟩
  cases hentry : s.cells.getEntryLE? number with
  | none =>
    have hposition : min number (2 ^ 64 - 1) = number := by omega
    have hpointer : s.pointerOf number pointeeSize =
        .pointer ⟨.null, signedWord 64 number⟩ pointeeSize := by
      rw [pointerOf, if_neg hzero, hposition]
      simp only [hentry]
    refine ⟨_, unsignedWord 128 (signedWord 64 number), hpointer, by simp only [numberOf], ?_⟩
    have hword := unsignedWord_mod (signedWord 64 number)
    rw [signedWord_mod] at hword
    omega
  | some entry =>
    obtain ⟨key, cell⟩ := entry
    have hle := key_le_of_getEntryLE? hentry
    obtain ⟨extent, hextent, hplaced⟩ := hordered.placed (getElem?_of_getEntryLE? hentry)
    have hoffset := hplaced.offset_eq
    have hbase : cell.base ≠ .null := by
      intro hbase
      rw [hbase, hnull] at hextent
      cases hextent
    have hpointer := pointerOf_of_nearest (Nat.pos_of_ne_zero hzero) hnumber hentry pointeeSize
    refine ⟨_, _, hpointer, numberOf_of_allocated hbase hextent _, ?_⟩
    have hword := unsignedWord_mod (extent.first + signedWord 64 (cell.offset + (number - key) : Nat))
    have hshift := signedWord_mod (cell.offset + (number - key) : Nat)
    omega

end Pointers

/-- A value whose bytes, brought to any size, are those of a pattern, in every store with the same
target and objects. -/
def Spells (s : Store Int Double) (v : Value Int Double) (bytes : BytePattern) : Prop :=
  v.isInitialized = true ∧ ∀ s' : Store Int Double, s'.target = s.target → s'.extents = s.extents →
    ∀ size, s'.valueBytes size v = .ok (bytes.resize size)

variable {cell : Cell Int Double} {updates : List (Nat × ValueSet Int Double)} {within : Nat}
  {contents : ValueSet Int Double} {pattern : BytePattern} {key : Nat}

/-- The widths of targets with two's complement. -/
theorem widths_of_twos {t : Target} (htwos : t.complement = .twos) :
    t.wordWidth = 8 ∧ t.floatWidth .longDouble = 8 + 8 := by
  cases t with
  | std => cases htwos
  | packed | gcc => exact ⟨rfl, rfl⟩

/-- The cell was never written. -/
def Unwritten (cell : Cell Int Double) : Prop :=
  cell.contents = .singleton (.uninitialized cell.scalar)

/-- The units that cells were made for. -/
def units (cells : List (Nat × Cell Int Double)) : List StorageUnit :=
  cells.map fun entry => ⟨entry.2.size, entry.2.scalar⟩

theorem total_units (cells : List (Nat × Cell Int Double)) : total (units cells) = span cells := by
  induction cells with
  | nil => rfl
  | cons entry rest ih =>
    rw [span_cons, ← ih]
    rfl

/-- What a cell that holds one value shows of its bytes. -/
theorem cellBytes_spells {s' : Store Int Double} (htarget : s'.target = s.target)
    (hextents : s'.extents = s.extents) (cell : Cell Int Double) {v : Value Int Double}
    {bytes : BytePattern} (hcontents : cell.contents = .singleton v)
    (hspells : s.Spells v (cell.scalar.settle s.target bytes)) {length : Nat}
    (hfits : within + length ≤ cell.size) :
    s'.cellBytes cell within length =
      .ok [((shows s.target ⟨cell.size, cell.scalar⟩ bytes).drop within).take length] := by
  have hbytes := hspells.2 s' htarget hextents cell.size
  have hlength : (shows s.target ⟨cell.size, cell.scalar⟩ bytes).length = cell.size :=
    length_shows
  rw [← slice_eq_take_drop (by omega)]
  unfold cellBytes
  rw [hcontents]
  simp only [ValueSet.singleton, mapM_cons, mapM_nil, hbytes]
  rfl

/-- A cell holds one value that was written, or was never written. -/
def Settled (cell : Cell Int Double) : Prop :=
  Unwritten cell ∨ ∃ v, cell.contents = .singleton v ∧ v.isInitialized = true

section Decode

variable {bytes : BytePattern} (htwos : s.target.complement = .twos) (hexact : bytes.isExact = true)
include htwos hexact

theorem decode_int (type : IntType) : ∃ v, s.decode (.int type) bytes = .ok (.singleton v) ∧
      s.Spells v ((int type).settle s.target bytes) := by
  have hlow := isExact_resize hexact (s.target.intWidth type.rank)
  have hknown : (bytes.resize (s.target.intWidth type.rank)).known < 2 ^ s.target.intBits type.rank := by
    have hlt := known_lt hlow
    rwa [length_resize, ← two_pow_intBits_eq] at hlt
  refine ⟨.int (s.target.decode type (bytes.resize (s.target.intWidth type.rank)).known) type,
    ?_, rfl, ?_⟩
  · unfold decode Value.ofBytes?
    rw [isInitialized_of_isExact hexact]
    change (Exact.ofBytes s.target type bytes).map _ = _
    rw [ofBytes_of_isExact _ _ hexact]
    rfl
  · intro s' htarget _ size
    change Except.ok ((ofNat (s'.target.encode type _) _).resize size) = _
    have hspelled := ofNat_known hlow
    rw [length_resize] at hspelled
    rw [htarget, encode_decode_of_lt htwos hknown, hspelled]
    rfl

omit htwos hexact in
/-- A `float` spells the word that its bytes make, with a NaN made quiet. -/
theorem encodeDouble_float (t : Target) {low : BytePattern} (hexact : low.isExact = true)
    (hlength : low.length = 4) :
    t.encodeDouble .float (t.decodeDouble .float low.known) =
      if Double.Signaling low.known then .ofNat (low.known + 2 ^ 22) 4 else low := by
  have hwidth : t.floatWidth .float = 4 := by cases t <;> rfl
  have hword : low.known < 2 ^ 32 := by
    have hlt := known_lt hexact
    rw [hlength] at hlt
    omega
  unfold encodeDouble decodeDouble
  simp only [hwidth, ↓reduceIte]
  rw [Nat.mod_eq_of_lt hword, Double.toSingleWord_ofSingleWord hword]
  split
  · rfl
  · rw [← hlength, ofNat_known hexact]

omit htwos in
/-- A wider floating number spells the low eight of its bytes and then zeros. -/
theorem encodeDouble_wide (t : Target) {kind : FloatKind} {extra : Nat} (hwidth : t.floatWidth kind = 8 + extra) :
    t.encodeDouble kind (t.decodeDouble kind (bytes.resize (8 + extra)).known) =
      bytes.resize 8 ++ .zeros extra := by
  have hwide : ¬8 + extra = 4 := by omega
  have hwhole := isExact_resize hexact (8 + extra)
  unfold encodeDouble decodeDouble
  simp only [hwidth, hwide, ↓reduceIte]
  have hmod : (bytes.resize (8 + extra)).known % 2 ^ 64 = (bytes.resize (8 + extra)).known % 256 ^ 8 := by
    congr 1
  have hsmall : (bytes.resize (8 + extra)).known % 256 ^ 8 < 256 ^ 8 := Nat.mod_lt _ (Nat.pow_pos (by omega))
  rw [UInt64.toNat_ofNat', hmod, ofNat_add, ofNat_mod,
    ofNat_known_take hwhole (by simp), take_resize _ (by omega),
    Nat.div_eq_of_lt hsmall, ofNat_zero]

theorem decode_float (kind : FloatKind) : ∃ v, s.decode (.float kind) bytes = .ok (.singleton v) ∧
      s.Spells v ((Scalar.float kind).settle s.target bytes) := by
  have hlow := isExact_resize hexact (s.target.floatWidth kind)
  have hwidth : s.target.floatWidth kind ≤ maxLength := by
    cases s.target <;> cases kind <;> decide
  have hpattern : (bytes.resize (s.target.floatWidth kind)).toNat? =
      some (bytes.resize (s.target.floatWidth kind)).known := by
    rw [toNat?, hlow, length_resize, decide_eq_true hwidth]
    rfl
  refine ⟨.float (s.target.decodeDouble kind (bytes.resize (s.target.floatWidth kind)).known) kind,
    ?_, rfl, ?_⟩
  · unfold decode Value.ofBytes?
    rw [isInitialized_of_isExact hexact]
    change (Exact.floatOfBytes s.target kind bytes).map _ = _
    rw [Exact.floatOfBytes, hpattern]
    rfl
  · intro s' htarget _ size
    change Except.ok ((s'.target.encodeDouble kind _).resize size) = _
    rw [htarget]
    have hwide (extra : Nat) (hkind : kind ≠ .float) (hextra : s.target.floatWidth kind = 8 + extra) :
        (s.target.encodeDouble kind (s.target.decodeDouble kind
          (bytes.resize (s.target.floatWidth kind)).known)).resize size =
          ((Scalar.float kind).settle s.target bytes).resize size := by
      have hsettle : (Scalar.float kind).settle s.target bytes = bytes.resize 8 := by
        cases kind with
        | float => exact absurd rfl hkind
        | double => rfl
        | longDouble => rfl
      rw [hsettle, hextra, encodeDouble_wide hexact s.target hextra, resize_append_zeros]
    cases kind with
    | float =>
      have hfour : s.target.floatWidth .float = 4 := by cases s.target <;> rfl
      rw [hfour] at hlow ⊢
      rw [encodeDouble_float s.target hlow (length_resize _ _)]
      simp [Scalar.settle, Scalar.kept]
    | double => exact congrArg Except.ok (hwide 0 (by decide) (by cases s.target <;> rfl))
    | longDouble => exact congrArg Except.ok (hwide 8 (by decide) (widths_of_twos htwos).2)

variable (hordered : s.Ordered) (hnull : s.extents[Base.null]? = none)
include hordered hnull

theorem decode_pointer (pointeeSize : Nat) :
    ∃ v, s.decode (.pointer pointeeSize) bytes = .ok (.singleton v) ∧
      s.Spells v ((Scalar.pointer pointeeSize).settle s.target bytes) := by
  have hword := (widths_of_twos htwos).1
  have hlow := isExact_resize hexact 8
  have hpatterns := enumerate_of_isExact hlow
    (show _ ≤ maxLength by rw [length_resize, maxLength]; omega)
    maxUnknownBits
  have hnumber : (bytes.resize 8).known < 2 ^ 64 := by
    have hlt := known_lt hlow
    rw [length_resize] at hlt
    omega
  obtain ⟨address, found, hpointer, hfound, hmod⟩ :=
    numberOf_pointerOf hordered hnull hnumber pointeeSize
  refine ⟨.pointer address pointeeSize, ?_, rfl, ?_⟩
  · unfold decode Value.ofBytes?
    rw [isInitialized_of_isExact hexact, hword, hpatterns, ← hpointer]
    rfl
  · intro s' htarget hextents size
    have hfound' : s'.numberOf address = .ok found := by
      unfold numberOf at hfound ⊢
      rw [hextents]
      exact hfound
    have hbytes : s'.valueBytes size (.pointer address pointeeSize) =
        .ok ((ofNat found 8).resize size) := by
      change (s'.numberOf address).map _ = _
      rw [hfound', htarget, hword]
      rfl
    have hspelled : ofNat found 8 = bytes.resize 8 := by
      have hlast := ofNat_known hlow
      rw [length_resize, ← hmod] at hlast
      exact (ofNat_mod found 8).symm.trans hlast
    have hsettle : (Scalar.pointer pointeeSize).settle s.target bytes = bytes.resize 8 := by
      rw [Scalar.settle, Scalar.kept, hword, if_neg (by simp)]
    rw [hbytes, hspelled, hsettle]

/-- Exact bytes that can be packed into a value of a class make one value, which spells what the
class has room for. -/
theorem decode_eq_ok {scalar : Scalar} (hrun : s.decode scalar bytes = .ok contents) :
    ∃ v, contents = .singleton v ∧ s.Spells v (scalar.settle s.target bytes) := by
  suffices hdecode : ∃ v, s.decode scalar bytes = .ok (.singleton v) ∧
      s.Spells v (scalar.settle s.target bytes) by
    obtain ⟨v, hv, hspells⟩ := hdecode
    rw [hrun] at hv
    exact ⟨v, Except.ok.inj hv, hspells⟩
  cases scalar with
  | int type => exact decode_int htwos hexact type
  | float kind => exact decode_float htwos hexact kind
  | pointer pointeeSize => exact decode_pointer htwos hexact hordered hnull pointeeSize
  | function =>
    unfold decode Value.ofBytes? at hrun
    rw [isInitialized_of_isExact hexact] at hrun
    cases hrun

omit hexact in
/-- Bytes put into a fresh cell make one value. -/
theorem patchCell_unwritten (hcell : Unwritten cell) {piece : BytePattern}
    (hpiece : piece.isExact = true) (hfits : within + piece.length ≤ cell.size)
    (hrun : s.patchCell cell within [piece] = .ok contents) :
    ∃ v, contents = .singleton v ∧ s.Spells v (cell.scalar.settle s.target
      (spread ⟨cell.size, cell.scalar⟩ within piece)) := by
  have hspliced : (zeros cell.size).splice within piece =
      spread ⟨cell.size, cell.scalar⟩ within piece := by
    rw [splice_eq_append (by rw [length_zeros]; exact hfits), spread,
      zeros, take_replicate, drop_replicate, Nat.min_eq_left (by omega)]
    rfl
  have hold : s.valueBytes cell.size (.uninitialized cell.scalar) =
      .ok ((uninitialized (cell.scalar.size s.target)).resize cell.size) := rfl
  unfold patchCell ValueSet.flatMap at hrun
  rw [hcell] at hrun
  simp only [ValueSet.singleton, ValueSet.flatMapList, foldlM_cons, foldlM_nil, hold,
    orZero_uninitialized, hspliced, bind, Except.bind] at hrun
  cases hdecode : s.decode cell.scalar (spread ⟨cell.size, cell.scalar⟩ within piece) with
  | error fault =>
    rw [hdecode] at hrun
    cases hrun
  | ok packed =>
    obtain ⟨v, rfl, hspells⟩ :=
      decode_eq_ok htwos (isExact_spread hpiece) hordered hnull hdecode
    rw [hdecode] at hrun
    cases hrun
    exact ⟨v, rfl, hspells⟩

omit hexact in
/-- Packing a pattern into a chain of fresh cells, and what comes back of it afterwards. -/
theorem repack_unwritten (address : Address) {cells : List (Nat × Cell Int Double)} (hchain : s.Chain key cells)
    (hcells : ∀ entry ∈ cells, Unwritten entry.2 ∧ 0 < entry.2.size)
    (hpattern : pattern.isExact = true) {fuel consumed : Nat} (hwithin : StartsWithin within cells)
    (hconsumed : consumed ≤ pattern.length)
    (hrun : s.repack address false [pattern] pattern.length fuel key within consumed = .ok updates) :
    within + (pattern.length - consumed) ≤ span cells ∧
    ∃ cells', Rewrites updates cells cells' ∧ (∀ entry ∈ cells', Settled entry.2) ∧
      ∀ s' : Store Int Double, s'.target = s.target → s'.extents = s.extents → s'.Chain key cells' →
        ∀ (address : Address) (fuel : Nat) (done : BytePattern), pattern.length - consumed ≤ fuel →
          s'.collectBytes address fuel key within (pattern.length - consumed) [done] =
            .ok [done ++ recovered s.target (units cells) within (pattern.drop consumed)] := by
  induction hchain generalizing fuel within consumed updates with
  | nil =>
    have hdone : pattern.length ≤ consumed := by
      by_contra hmore
      cases fuel with
      | zero =>
        rw [repack, if_pos (by omega)] at hrun
        cases hrun
      | succ fuel =>
        rw [repack, if_neg hmore, if_pos rfl] at hrun
        cases hrun
    rw [repack_of_le address _ hdone] at hrun
    cases hrun
    have hzero : within = 0 := hwithin
    refine ⟨by omega, [], .rest [], by simp, fun s' _ _ _ address fuel done _ => ?_⟩
    rw [Nat.sub_eq_zero_of_le hdone, collectBytes]
    simp [units, recovered]
  | @cons key cell rest hkey hcell hrest ih =>
    have hfresh : Unwritten cell := (hcells _ mem_cons_self).1
    have hspan : span ((key, cell) :: rest) = cell.size + span rest := rfl
    have htail := fun entry hentry => hcells entry (mem_cons_of_mem (key, cell) hentry)
    have hwithin : within < cell.size := hwithin
    rcases Nat.eq_or_lt_of_le hconsumed with rfl | hmore
    · rw [repack_of_le address _ (Nat.le_refl _)] at hrun
      cases hrun
      refine ⟨by omega, _, .rest _, fun entry hentry => .inl (hcells entry hentry).1,
        fun s' _ _ _ address fuel done _ => ?_⟩
      rw [Nat.sub_self, collectBytes, drop_length, recovered_nil, append_nil]
    · generalize htaken : min (cell.size - within) (pattern.length - consumed) = taken
      have hpiece : ((pattern.drop consumed).take taken).length = taken := by
        rw [length_take, length_drop]
        omega
      have hexact := isExact_take (isExact_drop hpattern consumed) taken
      obtain ⟨fuel, rfl⟩ : ∃ f, fuel = f + 1 := by
        cases fuel with
        | zero =>
          rw [repack, if_pos hmore] at hrun
          cases hrun
        | succ fuel => exact ⟨fuel, rfl⟩
      rw [repack_cell address hkey hcell fuel within hmore htaken] at hrun
      obtain ⟨contents, hcontents, hrun⟩ := exists_of_bind_ok hrun
      obtain ⟨later, hlater, hdone⟩ := exists_of_bind_ok hrun
      cases hdone
      obtain ⟨v, rfl, hspells⟩ := patchCell_unwritten htwos hordered hnull hfresh hexact (by omega)
        hcontents
      obtain ⟨hfits, cells', hrewrites, hsettled, hreads⟩ := ih htail
        (startsWithin_zero fun entry hentry => (htail entry hentry).2)
        (show consumed + taken ≤ pattern.length by omega) hlater
      refine ⟨by omega, _, .cell key cell _ hrewrites, ?_, ?_⟩
      · intro entry hentry
        rcases mem_cons.mp hentry with rfl | hmem
        · exact .inr ⟨v, rfl, hspells.1⟩
        · exact hsettled entry hmem
      · intro s' htarget hextents hchain' address fuel done hfuel
        obtain _ | fuel := fuel
        · omega
        cases hchain' with
        | cons _ hcell' hrest' =>
          have hshown := cellBytes_spells htarget hextents { cell with contents := .singleton v }
            rfl hspells (show within + taken ≤ cell.size by omega)
          have hread := collectBytes_cell address hkey hcell' fuel within
            (show 0 < pattern.length - consumed by omega) (htaken.symm ▸ hshown) done
          dsimp only at hread
          rw [htaken, Nat.sub_sub] at hread
          rw [hread, hreads s' htarget hextents hrest' address fuel _ (by omega)]
          have hunits : units ((key, cell) :: rest) = ⟨cell.size, cell.scalar⟩ :: units rest := rfl
          rw [hunits, recovered, length_drop, htaken, drop_drop, append_assoc]

end Decode

/-- Contents of fresh and of settled cells that count as the same are equal. -/
theorem Unwritten.eq_of_same {cell' : Cell Int Double} (hcell : Unwritten cell)
    (hcell' : Settled cell') (hsame : cell.contents.same cell'.contents = true) :
    cell.contents = cell'.contents := by
  rw [hcell] at hsame ⊢
  rcases hcell' with hfresh | ⟨v, hv, hinitialized⟩
  · rw [hfresh] at hsame ⊢
    change (decide (cell.scalar = cell'.scalar) && true) = true at hsame
    obtain hscalar : cell.scalar = cell'.scalar := by simpa using hsame
    rw [hscalar]
  · rw [hv] at hsame
    cases v with
    | uninitialized => cases hinitialized
    | int | float | pointer | function => cases hsame

/-- An object that was never written, in a store where nothing lies at the null pointer. -/
structure FreshObject (s : Store Int Double) (base : Base) (extent : Extent)
    (cells : List (Nat × Cell Int Double)) : Prop extends s.Tiles base extent cells where
  ordered : s.Ordered
  usable : s.Usable base
  single : s.isSummary base = false
  noNull : s.extents[Base.null]? = none
  fresh : ∀ entry ∈ cells, Unwritten entry.2

/-- An object that was just allocated is fresh, with one cell for each unit. -/
theorem freshObject_allocate (hordered : s.Ordered) (hnull : s.extents[Base.null]? = none)
    {base : Base} (hnew : s.extents[base]? = none) (husable : s.Usable base)
    (hsingle : s.isSummary base = false) {layout : Layout}
    (hsolid : ∀ unit ∈ layout.units, 0 < unit.size) {address : Address} {s' : Store Int Double}
    (hallocate : allocate base layout s = .ok address s') :
    ∃ extent cells, s'.FreshObject base extent cells ∧ units cells = layout.flatten ∧
      s'.target = s.target ∧ s'.update = s.update := by
  obtain ⟨-, hunits, hcount, rfl⟩ := allocate_ok_of_new hnew hallocate
  obtain ⟨extent, cells, htiles, hshape, -⟩ :=
    tiles_addObject s base (layout.flatten_ne_nil hunits hcount)
      (fun unit hunit => hsolid unit (layout.mem_units_of_mem_flatten hunit)) hordered.next_pos
  refine ⟨extent, cells, ⟨htiles, hordered.addObject hnew _, ?_, ?_, ?_, ?_⟩, hshape, rfl, rfl⟩
  · cases base <;> exact husable
  · have hunmarked : (s.addObject base layout.flatten).extents[base]?.any (·.summary) = false := by
      simp [addObject]
    have hmarked : s.extents[base]?.any (·.summary) = false := by simp [hnew]
    cases base with
    | null => exact hunmarked
    | frame frame name => exact hunmarked
    | heap id =>
      unfold isSummary at hsingle ⊢
      rw [hmarked] at hsingle
      rw [hunmarked]
      exact hsingle
  · have hbase : base ≠ .null := by
      rintro rfl
      exact husable
    have hinsert := Std.TreeMap.getElem?_insert (t := s.extents) (k := base) (a := .null)
      (v := ⟨s.next, (appendCells base layout.flatten s.cells s.next 0 noCell).2.2, false⟩)
    rw [if_neg (by simpa using hbase), hnull] at hinsert
    exact hinsert
  · intro entry hentry
    rcases cases_appendCells base layout.flatten s.cells s.next 0 noCell
      (htiles.chain.getElem? hentry) with ⟨hfresh, -⟩ | ⟨old, hold, heq⟩
    · exact hfresh
    · obtain ⟨owner, howner, -⟩ := hordered.placed hold
      have hbase := (htiles.own entry hentry).1
      rw [heq] at hbase
      rw [hbase, hnew] at howner
      cases howner

theorem Rewrites.exists_head {after cells' : List (Nat × Cell Int Double)}
    (hrewrites : Rewrites updates ((key, cell) :: after) cells') :
    ∃ contents after', cells' = (key, { cell with contents }) :: after' := by
  cases hrewrites with
  | rest => exact ⟨cell.contents, after, rfl⟩
  | cell _ _ contents => exact ⟨contents, _, rfl⟩

section RoundTrip

variable {base : Base} {extent : Extent} {cells before after : List (Nat × Cell Int Double)}
  {offset : Nat} {type : IntType} {n : Int} {s' : Store Int Double}

section

variable (hobject : s.FreshObject base extent (before ++ (key, cell) :: after))
  (hle : span before ≤ offset) (hlt : offset < span before + cell.size)
include hobject hle hlt

/-- After a rewriting of the cells from a byte on, the byte is found where it was, and the links
lead through the rewritten cells. -/
theorem FreshObject.rewritten {after' : List (Nat × Cell Int Double)}
    (hrewrites : Rewrites updates ((key, cell) :: after) ((key, { cell with contents }) :: after'))
    (hsettled : ∀ entry ∈ (key, { cell with contents }) :: after', Settled entry.2) :
    (s.commit updates).locate ⟨base, offset⟩ =
        .ok ⟨key, { cell with contents }, offset - span before⟩ ∧
      (s.commit updates).Chain key ((key, { cell with contents }) :: after') := by
  have htiles := hobject.toTiles.rewrite hrewrites (fun entry hentry entry' hentry' =>
    (hobject.fresh entry (mem_append_right _ hentry)).eq_of_same (hsettled entry' hentry')) hobject.ordered
  exact ⟨htiles.locate_append (hobject.ordered.commit updates)
    ((usable_commit s updates base).mpr hobject.usable) hle hlt, htiles.chain.of_append⟩

/-- An integer that met a unit of its own type is read back. -/
theorem FreshObject.read_direct
    (hdirect : offset - span before = 0 ∧ cell.scalar.compatible (.int type) = true) :
    (s.commit [(key, .singleton (.int n type))]).read ⟨base, offset⟩ (.int type) =
      .ok (.singleton (.int n type)) := by
  obtain ⟨hlocate, -⟩ := hobject.rewritten hle hlt
    (.cell key cell (.singleton (.int n type)) (.rest after)) fun entry hentry => by
    rcases mem_cons.mp hentry with rfl | hmem
    · exact .inr ⟨.int n type, rfl, rfl⟩
    · exact .inl (hobject.fresh entry (mem_append_right _ (mem_cons_of_mem _ hmem)))
  unfold read
  rw [hlocate]
  change (if offset - span before = 0 ∧ cell.scalar.compatible (.int type) = true then _ else _) = _
  rw [if_pos hdirect]
  rfl

/-- Bytes that were packed into fresh cells are read back as the units give them back. -/
theorem FreshObject.read_packed (htwos : s.target.complement = .twos)
    (hindirect : ¬(offset - span before = 0 ∧ cell.scalar.compatible (.int type) = true))
    (hexact : pattern.isExact = true) (hlength : pattern.length = s.target.intWidth type.rank)
    (hrun : s.repack ⟨base, offset⟩ false [pattern] pattern.length (s.accessFuel pattern.length) key
      (offset - span before) 0 = .ok updates) :
    offset + pattern.length ≤ span (before ++ (key, cell) :: after) ∧
    (s.commit updates).read ⟨base, offset⟩ (.int type) =
      .ok (.singleton (.int (s.target.decode type (known (recovered s.target
        (units ((key, cell) :: after)) (offset - span before) pattern))) type)) := by
  have hchain := hobject.chain.of_append
  obtain ⟨hfits, cells', hrewrites, hsettled, hreads⟩ := repack_unwritten htwos hobject.ordered
    hobject.noNull ⟨base, offset⟩ hchain
    (fun entry hentry => ⟨hobject.fresh entry (mem_append_right _ hentry),
      (hobject.own entry (mem_append_right _ hentry)).2⟩)
    hexact (show offset - span before < cell.size by omega) (Nat.zero_le _) hrun
  obtain ⟨contents, after', rfl⟩ := hrewrites.exists_head
  obtain ⟨hlocate, hchain'⟩ := hobject.rewritten hle hlt hrewrites hsettled
  rw [Nat.sub_zero] at hfits
  refine ⟨by rw [span_append]; omega, ?_⟩
  have htarget : (s.commit updates).target = s.target := commit_target s updates
  have hcollect := hreads _ htarget (commit_extents s updates) hchain' ⟨base, offset⟩
    ((s.commit updates).accessFuel pattern.length) [] (by rw [accessFuel]; omega)
  rw [Nat.sub_zero, drop_zero, nil_append] at hcollect
  have hrecovered : (recovered s.target (units ((key, cell) :: after)) (offset - span before)
      pattern).length = (s.commit updates).target.intWidth type.rank := by
    rw [length_recovered s.target (by rw [total_units]; exact hfits), hlength, htarget]
  have hdecode := decode_of_isExact (s.commit updates) type
    (isExact_recovered s.target hexact) hrecovered
  unfold read
  rw [hlocate]
  change (if offset - span before = 0 ∧ cell.scalar.compatible (.int type) = true then _ else _) = _
  rw [if_neg hindirect]
  have hwidth : (int type).size (s.commit updates).target = pattern.length := by
    rw [hlength, htarget]
    rfl
  dsimp only
  rw [hwidth, hcollect]
  simp only [bind, Except.bind, foldlM_cons, foldlM_nil, hdecode, Except.map]
  rw [htarget]
  rfl

end

/-- The integer that recovered bytes spell is the one that was written exactly when every unit gives
back its share of the pattern. -/
theorem decode_recovered_eq_iff (htwos : s.target.complement = .twos)
    (hrange : s.target.InRange type n) {list : List StorageUnit}
    (hwithin : ∀ unit ∈ list.head?, within ≤ unit.size)
    (hfits : within + s.target.intWidth type.rank ≤ total list) :
    let pattern := ofNat (s.target.encode type n) (s.target.intWidth type.rank)
    s.target.decode type (known (recovered s.target list within pattern)) = n ↔
      AllGiveBack s.target list (.zeros within ++ pattern ++
        .zeros (total list - (within + pattern.length))) := by
  intro pattern
  have hexact : pattern.isExact = true := isExact_ofNat _ _
  have hlength : pattern.length = s.target.intWidth type.rank := length_ofNat _ _
  have hinside : within + pattern.length ≤ total list := by rw [hlength]; exact hfits
  rw [← recovered_eq_iff s.target hexact hwithin hinside]
  have hrecovered := (length_recovered s.target hinside).trans hlength
  have hback : (recovered s.target list within pattern).isExact = true :=
    isExact_recovered s.target hexact
  have hspelled := ofNat_known hback
  have hknown := known_lt hback
  rw [hrecovered] at hspelled hknown
  rw [← two_pow_intBits_eq] at hknown
  constructor
  · intro hsame
    have hcode := encode_decode_of_lt htwos hknown
    rw [hsame] at hcode
    rw [← hspelled, ← hcode]
  · intro hsame
    have hencode := encode_lt hrange
    rw [hsame, known_ofNat, ← two_pow_intBits_eq, Nat.mod_eq_of_lt hencode, decode_encode hrange]

/-- What is read back of an integer that was written to a fresh object. -/
theorem FreshObject.read_write (hobject : s.FreshObject base extent cells)
    (htwos : s.target.complement = .twos) (hstrong : s.update = .strong)
    (hrange : s.target.InRange type n)
    (hwrite : write ⟨base, offset⟩ (.singleton (.int n type)) (.int type) false s = .ok ⟨⟩ s') :
    let pattern := ofNat (s.target.encode type n) (s.target.intWidth type.rank)
    ∃ m, s'.read ⟨base, offset⟩ (.int type) = .ok (.singleton (.int m type)) ∧
      (m = n ↔ scalarAt? (units cells) offset = some (.int type) ∨
        AllGiveBack s.target (units cells) (.zeros offset ++ pattern ++
          .zeros (total (units cells) - (offset + pattern.length)))) := by
  intro pattern
  have hlength : pattern.length = s.target.intWidth type.rank := length_ofNat _ _
  obtain ⟨updates, hupdates, rfl⟩ : ∃ updates,
      s.updates ⟨base, offset⟩ (.singleton (.int n type)) (.int type) false = .ok updates ∧
        s' = s.commit updates := by
    unfold write at hwrite
    split at hwrite
    next updates hupdates =>
      cases hwrite
      exact ⟨updates, hupdates, rfl⟩
    next => cases hwrite
  have hoffset : offset < extent.size := by
    obtain ⟨place, hplace, -⟩ := exists_of_bind_ok hupdates
    obtain ⟨-, other, hother, -, hlt, -⟩ := locate_eq_ok hplace
    rw [hobject.allocated] at hother
    cases hother
    simpa using hlt
  obtain ⟨before, key, cell, after, rfl, hle, hlt, hlocate⟩ :=
    hobject.toTiles.locate hobject.ordered hobject.usable hoffset
  have hunits : units (before ++ (key, cell) :: after) =
      units before ++ ⟨cell.size, cell.scalar⟩ :: units after := map_append
  have hstart : scalarAt? (units (before ++ (key, cell) :: after)) offset =
      if offset = span before then some cell.scalar else none := by
    rw [hunits, ← total_units before]
    refine scalarAt?_append (fun unit hunit => ?_) (by rw [total_units]; exact hle)
      (by rw [total_units]; exact hlt)
    obtain ⟨entry, hentry, rfl⟩ := mem_map.mp hunit
    exact (hobject.own entry (mem_append_left _ hentry)).2
  rw [updates_place hstrong hobject.single hlocate] at hupdates
  by_cases hdirect : offset - span before = 0 ∧ cell.scalar.compatible (.int type) = true
  · rw [if_pos hdirect] at hupdates
    cases hupdates
    refine ⟨n, hobject.read_direct hle hlt hdirect, iff_of_true rfl (.inl ?_)⟩
    rw [hstart, if_pos (by omega), eq_of_compatible hdirect.2]
  · rw [if_neg hdirect] at hupdates
    obtain ⟨hfits, hread⟩ := hobject.read_packed hle hlt htwos hdirect
      (isExact_ofNat _ _) hlength hupdates
    have hfits : offset + pattern.length ≤ span (before ++ (key, cell) :: after) := hfits
    refine ⟨_, hread, ?_⟩
    have hnone : scalarAt? (units (before ++ (key, cell) :: after)) offset ≠ some (.int type) := by
      rw [hstart]
      split
      next hfirst =>
        intro hscalar
        refine hdirect ⟨by omega, ?_⟩
        rw [Option.some.inj hscalar]
        simp [compatible]
      next => simp
    rw [or_iff_right hnone]
    -- the units before the cell hold zeros, and it is the rest that matters
    have hhead : ∀ unit ∈ (units ((key, cell) :: after)).head?, offset - span before ≤ unit.size := by
      rintro unit hunit
      cases hunit
      dsimp only
      omega
    have hspan := span_append before ((key, cell) :: after)
    have hinside : offset - span before + s.target.intWidth type.rank ≤
        total (units ((key, cell) :: after)) := by
      rw [total_units]
      omega
    refine (decode_recovered_eq_iff htwos hrange hhead hinside).trans ?_
    change AllGiveBack _ _ (.zeros _ ++ pattern ++ .zeros (_ - (_ + pattern.length))) ↔ _
    have hzeros : zeros offset =
        .zeros (total (units before)) ++ .zeros (offset - span before) := by
      rw [total_units, zeros, zeros, zeros, replicate_append_replicate]
      congr 1
      omega
    have hrest : total (units (before ++ (key, cell) :: after)) - (offset + pattern.length) =
        total (units ((key, cell) :: after)) - (offset - span before + pattern.length) := by
      rw [total_units, total_units]
      omega
    rw [hrest, hzeros, append_assoc, append_assoc, append_assoc, hunits, allGiveBack_append]
    rfl

/-- **What comes back of an integer.** An integer written to an object that was just allocated, at
any byte and through any type, is followed there by exactly one integer. It is the one that was
written if and only if a unit of its very type starts at the byte, or every unit of the object gives
back its share of the pattern: bytes past those that its class has room for are zero, and a `float`
unit is not left with a signaling NaN. Where every unit has room for all of its bytes and none is a
`float`, any integer comes back. -/
theorem fresh_object_round_trip {s : Store Int Double} (hreach : s.Reachable)
    (hnull : s.extents[Base.null]? = none) (htwos : s.target.complement = .twos)
    (hstrong : s.update = .strong) {base : Base} (hnew : s.extents[base]? = none)
    (husable : s.Usable base) (hsingle : s.isSummary base = false) {layout : Layout}
    (hsolid : ∀ unit ∈ layout.units, 0 < unit.size) {address : Address}
    {allocated written : Store Int Double} (hallocate : allocate base layout s = .ok address allocated)
    {type : IntType} {n : Int} (hrange : s.target.InRange type n) {offset : Nat}
    (hwrite : write ⟨base, offset⟩ (.singleton (.int n type)) (.int type) false allocated =
      .ok ⟨⟩ written) :
    let pattern := ofNat (s.target.encode type n) (s.target.intWidth type.rank)
    let bytes := .zeros offset ++ pattern ++ .zeros (layout.size - (offset + pattern.length))
    ∃ m, written.read ⟨base, offset⟩ (.int type) = .ok (.singleton (.int m type)) ∧
      (m = n ↔ scalarAt? layout.flatten offset = some (.int type) ∨
        AllGiveBack s.target layout.flatten bytes) ∧
      ((∀ unit ∈ layout.units, unit.size ≤ unit.scalar.kept s.target ∧ unit.scalar ≠ .float .float) →
        m = n) := by
  intro pattern bytes
  obtain ⟨extent, cells, hobject, hunits, htarget, hupdate⟩ :=
    freshObject_allocate hreach.ordered hnull hnew husable hsingle hsolid hallocate
  obtain ⟨m, hread, hm⟩ := hobject.read_write (by rw [htarget]; exact htwos)
    (by rw [hupdate]; exact hstrong) (by rw [htarget]; exact hrange) hwrite
  rw [hunits, htarget, layout.total_flatten] at hm
  refine ⟨m, hread, hm, fun hroom => hm.mpr (.inr (allGiveBack_of_room _ ?_ _))⟩
  exact fun unit hunit => hroom unit (layout.mem_units_of_mem_flatten hunit)

/-- A member of type `int`, padded, and a pointer to characters. -/
def paddedPair : Layout := ⟨[⟨8, .int .int⟩, ⟨8, .pointer 1⟩], 1⟩

/-- Two of the four bytes of the integer 258 lie in the padding of the first member, but they are
zero, so it comes back from there. -/
theorem paddedPair_gives_back : ∃ allocated written : Store Int Double,
      allocate (.frame 0 "s") paddedPair (new .gcc .strong .concrete) = .ok ⟨.frame 0 "s", 0⟩ allocated ∧
      write ⟨.frame 0 "s", 2⟩ (.singleton (.int 258 .int)) (.int .int) false allocated = .ok ⟨⟩ written ∧
      written.read ⟨.frame 0 "s", 2⟩ (.int .int) = .ok (.singleton (.int 258 .int)) := by
  have hsolid : ∀ unit ∈ paddedPair.units, 0 < unit.size := by decide
  have hrange : gcc.InRange .int 258 := by decide
  refine ⟨_, _, rfl, rfl, ?_⟩
  obtain ⟨m, hread, hm, -⟩ := fresh_object_round_trip
    (show (new .gcc .strong .concrete : Store Int Double).Reachable from .new ..) rfl rfl rfl
    (show _[Base.frame 0 "s"]? = none from rfl) trivial rfl hsolid rfl hrange
    (show write ⟨_, (2 : Nat)⟩ _ _ _ _ = _ from rfl)
  rw [hm.mpr (.inr (by decide))] at hread
  exact hread

/-- A union of eight characters and an `int`. -/
def charsOrInt : CType := .plain (.union "U")

/-- An `int` written to the union is read back as its low byte: the union is one unit of the class
of a character, which has room for no more. -/
theorem charsOrInt_forgets :
    (Layouts.ofDeclarations .packed [("U", ⟨[⟨"a", ⟨.integer .char, 0, some 8⟩⟩, ⟨"x", .integer .int⟩],
      true⟩)]).layout charsOrInt = .ok ⟨[⟨8, .int .char⟩], 1⟩ ∧
    ∃ allocated written : Store Int Double,
      allocate (.frame 0 "u") ⟨[⟨8, .int .char⟩], 1⟩ (new .packed .strong .concrete) =
        .ok ⟨.frame 0 "u", 0⟩ allocated ∧
      write ⟨.frame 0 "u", 0⟩ (.singleton (.int 1234 .int)) (.int .int) false allocated =
        .ok ⟨⟩ written ∧
      written.read ⟨.frame 0 "u", 0⟩ (.int .int) = .ok (.singleton (.int 210 .int)) :=
  ⟨rfl, _, _, rfl, rfl, rfl⟩

end RoundTrip

end Store

end CoreC
