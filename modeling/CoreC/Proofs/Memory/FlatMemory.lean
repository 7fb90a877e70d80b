import CoreC.Proofs.Memory.IntegerCells

/-! # Flat memory

An object made of integers is a string of bytes: the patterns of its cells one after the
other. Reading and writing it through any integer type, at any offset, is reading and
writing that string, however the access lies across the cells.
-/

namespace CoreC.Store

open BytePattern List Scalar Target

/-- A single object in use whose cells hold integers, with its cells in the order of the
links. -/
structure IntegerObject (s : Store Int Double) (base : Base) (extent : Extent)
    (cells : List (Nat × Cell Int Double)) : Prop extends s.Tiles base extent cells where
  usable : s.Usable base
  single : s.isSummary base = false
  integers : ∀ entry ∈ cells, entry.2.HoldsInteger s.target

variable {s : Store Int Double} {base : Base} {extent : Extent} {cells : List (Nat × Cell Int Double)}

/-- A cell of the object with the bytes before it, and the chain from it on. -/
structure Cut (s : Store Int Double) (base : Base) (cells before after : List (Nat × Cell Int Double))
    (key : Nat) (cell : Cell Int Double) (offset : Nat) : Prop where
  eq_append : cells = before ++ (key, cell) :: after
  span_le : span before ≤ offset
  lt_span : offset < span before + cell.size
  locate_eq : s.locate ⟨base, offset⟩ = .ok ⟨key, cell, offset - span before⟩

theorem IntegerObject.exists_cut (hobject : s.IntegerObject base extent cells)
    (hordered : s.Ordered) {offset : Nat} (hoffset : offset < extent.size) :
    ∃ before after key cell, s.Cut base cells before after key cell offset := by
  obtain ⟨before, key, cell, after, hsplit, hle, hlt, hlocate⟩ :=
    hobject.toTiles.locate hordered hobject.usable hoffset
  exact ⟨before, after, key, cell, hsplit, hle, hlt, hlocate⟩

namespace Cut

variable {before after : List (Nat × Cell Int Double)} {key offset : Nat} {cell : Cell Int Double}
  (hcut : s.Cut base cells before after key cell offset) (hobject : s.IntegerObject base extent cells)
include hcut hobject

theorem integers : (∀ entry ∈ before, entry.2.HoldsInteger s.target) ∧
      ∀ entry ∈ (key, cell) :: after, entry.2.HoldsInteger s.target := by
  have hall := hobject.integers
  rw [hcut.eq_append] at hall
  exact ⟨fun entry hentry => hall entry (mem_append_left _ hentry),
    fun entry hentry => hall entry (mem_append_right _ hentry)⟩

theorem chain : s.Chain key ((key, cell) :: after) := by
  have hwhole := hobject.chain
  rw [hcut.eq_append] at hwhole
  exact hwhole.of_append

theorem drop_image : (image s.target cells).drop offset =
    (image s.target ((key, cell) :: after)).drop (offset - span before) := by
  have hlength := length_image (hcut.integers hobject).1
  have hle := hcut.span_le
  rw [hcut.eq_append, image_append, drop_append, hlength, drop_of_length_le (by omega), nil_append]

theorem image_length (hordered : s.Ordered) :
    span before + (image s.target ((key, cell) :: after)).length = extent.size := by
  have hspan := hobject.toTiles.span_eq hordered
  rw [← hspan, length_image (hcut.integers hobject).2, hcut.eq_append]
  simp

end Cut

/-- An integer cell is compatible with its own type only, and then shows its own integer. -/
theorem decode_image {cell : Cell Int Double} (hheld : cell.HoldsInteger s.target) {type : IntType}
    (hcompatible : cell.scalar.compatible (.int type) = true) (rest : BytePattern) :
    cell.size = s.target.intWidth type.rank ∧
      ValueSet.ofList (cell.contents.items.map (retag (.int type))) =
        .singleton (.int (s.target.decode type (known
          ((cell.image s.target ++ rest).take (s.target.intWidth type.rank)))) type) := by
  have hlength := (image_holdsInteger hheld).1
  obtain ⟨n, type', hscalar, hsize, hcontents, hrange⟩ := hheld
  rw [hscalar] at hcompatible
  have htype : type' = type := by simpa [compatible] using hcompatible
  subst htype
  refine ⟨hsize, ?_⟩
  have hencode := encode_lt hrange
  rw [take_append_of_le_length (by omega), take_of_length_le (by omega),
    image_of_contents hcontents, known_ofNat, ← two_pow_intBits_eq, Nat.mod_eq_of_lt hencode,
    decode_encode hrange, hcontents]
  rfl

/-- Reading from a byte of the object reads its image. -/
theorem read_integerObject (hobject : s.IntegerObject base extent cells) (hordered : s.Ordered)
    (type : IntType) {offset : Nat} (hoffset : offset < extent.size) :
    s.read ⟨base, offset⟩ (.int type) = if offset + s.target.intWidth type.rank ≤ extent.size then
        .ok (.singleton (.int (s.target.decode type (known
          (((image s.target cells).drop offset).take (s.target.intWidth type.rank)))) type))
      else .error (.memory (.readPastEnd ⟨base, offset⟩)) := by
  obtain ⟨before, after, key, cell, hcut⟩ := hobject.exists_cut hordered hoffset
  have hintegers := (hcut.integers hobject).2
  have hheld : cell.HoldsInteger s.target := hintegers _ mem_cons_self
  have hlength := hcut.image_length hobject hordered
  have hle := hcut.span_le
  have hlt := hcut.lt_span
  unfold read
  rw [hcut.locate_eq, hcut.drop_image hobject]
  change (if offset - span before = 0 ∧ cell.scalar.compatible (.int type) = true then _ else _) = _
  split
  next hdirect =>
    obtain ⟨hsize, hvalues⟩ := decode_image hheld hdirect.2 (image s.target after)
    have hfits : offset + s.target.intWidth type.rank ≤ extent.size := by
      have hcell := (image_holdsInteger hheld).1
      simp only [image, flatMap_cons, length_append] at hlength
      omega
    rw [if_pos hfits, hdirect.1, drop_zero]
    exact congrArg Except.ok hvalues
  next =>
    have hcollect := collectBytes_chain ⟨base, offset⟩ (hcut.chain hobject) hintegers
      (show StartsWithin (offset - span before) ((key, cell) :: after) from
        show offset - span before < cell.size by omega)
      (show s.target.intWidth type.rank ≤ s.accessFuel (s.target.intWidth type.rank) by
        rw [accessFuel]; omega) []
    change (do
      let patterns ← s.collectBytes ⟨base, offset⟩ (s.accessFuel (s.target.intWidth type.rank)) key
        (offset - span before) (s.target.intWidth type.rank) [[]]
      _) = _
    have hbound : offset - span before + s.target.intWidth type.rank ≤
          (image s.target ((key, cell) :: after)).length ↔
        offset + s.target.intWidth type.rank ≤ extent.size := by omega
    rw [hcollect]
    simp only [hbound]
    split
    next hfits =>
      have hbytes := decode_of_isExact s type (isExact_take (isExact_drop (isExact_image hintegers)
          (offset - span before)) (s.target.intWidth type.rank))
        (by rw [length_take, length_drop]; omega)
      simp only [nil_append, bind, Except.bind, foldlM_cons, foldlM_nil, hbytes, Except.map]
      rfl
    next => rfl

section Write

variable {before after : List (Nat × Cell Int Double)} {key offset : Nat} {cell : Cell Int Double}
  {type : IntType} {n : Int}

/-- An integer type is compatible with itself only. -/
theorem eq_of_compatible {scalar : Scalar} (hcompatible : scalar.compatible (.int type) = true) :
    scalar = .int type := by
  cases scalar with
  | int other => simpa [compatible] using hcompatible
  | float | pointer | function => simp [compatible] at hcompatible

/-- A write of one integer goes into the cell at hand, or byte by byte from there on. -/
theorem updates_place (hstrong : s.update = .strong) (hsingle : s.isSummary base = false) {within : Nat}
    (hlocate : s.locate ⟨base, offset⟩ = .ok ⟨key, cell, within⟩) (type : IntType) (n : Int) :
    let pattern := ofNat (s.target.encode type n) (s.target.intWidth type.rank)
    s.updates ⟨base, offset⟩ (.singleton (.int n type)) (.int type) false =
      if within = 0 ∧ cell.scalar.compatible (.int type) then .ok [(key, .singleton (.int n type))]
      else
        s.repack ⟨base, offset⟩ false [pattern] pattern.length (s.accessFuel pattern.length) key
          within 0 := by
  have hweak : (false || decide (s.update = .weak) || s.isSummary base) = false := by
    simp [hstrong, hsingle]
  intro pattern
  have hpattern : pattern.length = (int type).size s.target := length_ofNat _ _
  unfold updates
  rw [hlocate, hpattern]
  simp only [bind, Except.bind, hweak]
  by_cases hdirect : within = 0 ∧ cell.scalar.compatible (.int type) = true
  · have hsize : cell.scalar.size s.target = (int type).size s.target := by
      rw [eq_of_compatible hdirect.2]
    rw [if_pos ⟨hdirect.1, hdirect.2, hsize⟩, if_pos hdirect]
    rfl
  · rw [if_neg fun hall => hdirect ⟨hall.1, hall.2.1⟩, if_neg hdirect]
    have hbytes : s.valueBytes ((int type).size s.target) (.int n type) = .ok pattern :=
      valueBytes_int s n type
    simp only [ValueSet.singleton, mapM_cons, mapM_nil, hbytes]
    rfl

variable {updates : List (Nat × ValueSet Int Double)} {cells' : List (Nat × Cell Int Double)}

section

variable (hobject : s.IntegerObject base extent cells) (hordered : s.Ordered)
  (hcut : s.Cut base cells before after key cell offset)
include hobject hordered hcut

/-- What a write to a byte of the object changes: cells from that byte on, which then show
the pattern of the integer in place of the old bytes. -/
theorem updates_integerObject (htwos : s.target.complement = .twos) (hstrong : s.update = .strong)
    (hrange : s.target.InRange type n) :
    let pattern := ofNat (s.target.encode type n) (s.target.intWidth type.rank)
    let bytes := image s.target ((key, cell) :: after)
    (offset + pattern.length ≤ extent.size → ∃ updates cells',
        s.updates ⟨base, offset⟩ (.singleton (.int n type)) (.int type) false = .ok updates ∧
        Rewrites updates ((key, cell) :: after) cells' ∧
        (∀ entry ∈ cells', entry.2.HoldsInteger s.target) ∧
        image s.target cells' = bytes.take (offset - span before) ++ pattern ++
          bytes.drop (offset - span before + pattern.length)) ∧
    (extent.size < offset + pattern.length →
      s.updates ⟨base, offset⟩ (.singleton (.int n type)) (.int type) false =
        .error (.memory (.writePastEnd ⟨base, offset⟩))) := by
  intro pattern bytes
  have hintegers := (hcut.integers hobject).2
  have hheld : cell.HoldsInteger s.target := hintegers _ mem_cons_self
  have hlength : span before + bytes.length = extent.size := hcut.image_length hobject hordered
  have hle := hcut.span_le
  have hlt := hcut.lt_span
  rw [updates_place hstrong hobject.single hcut.locate_eq type n]
  split
  next hdirect =>
    have himage := (image_holdsInteger hheld).1
    obtain ⟨held, type', hscalar, hsize, hcontents, -⟩ := hheld
    have htype : type' = type := by simpa [hscalar, compatible] using hdirect.2
    subst htype
    have hpattern : pattern.length = cell.size := by rw [hsize]; exact length_ofNat _ _
    have hbytes : bytes = cell.image s.target ++ image s.target after := rfl
    constructor
    · intro hfits
      refine ⟨_, _, rfl, .cell key cell _ (.rest after), ?_, ?_⟩
      · intro entry hentry
        rcases mem_cons.mp hentry with rfl | hmem
        · exact ⟨n, type', hscalar, hsize, rfl, hrange⟩
        · exact hintegers entry (mem_cons_of_mem _ hmem)
      · rw [hdirect.1, hbytes, take_zero, nil_append, Nat.zero_add, hpattern,
          drop_append_of_le_length (by omega), drop_of_length_le (by omega),
          nil_append]
        rfl
    · intro hoverrun
      rw [hbytes, length_append] at hlength
      omega
  next =>
    have hexact : pattern.isExact = true := isExact_ofNat _ _
    have hrepack := repack_chain htwos ⟨base, offset⟩ (hcut.chain hobject) hintegers hexact
      (show StartsWithin (offset - span before) ((key, cell) :: after) from
        show offset - span before < cell.size by omega)
      (Nat.zero_le pattern.length)
      (show pattern.length - 0 ≤ s.accessFuel pattern.length by rw [accessFuel]; omega)
    simp only [Nat.sub_zero, drop_zero] at hrepack
    constructor
    · intro hfits
      have hinside : offset - span before + pattern.length ≤ bytes.length := by omega
      exact hrepack.1 hinside
    · intro hoverrun
      have houtside : bytes.length < offset - span before + pattern.length := by omega
      exact hrepack.2 houtside

/-- Installing a rewriting of the cells from one on keeps the object, with those cells
rewritten. -/
theorem IntegerObject.commit (hrewrites : Rewrites updates ((key, cell) :: after) cells')
    (hcells' : ∀ entry ∈ cells', entry.2.HoldsInteger s.target) :
    (s.commit updates).IntegerObject base extent (before ++ cells') := by
  have hintegers := hcut.integers hobject
  have htiles := hobject.toTiles
  rw [hcut.eq_append] at htiles
  refine ⟨htiles.rewrite hrewrites (fun entry hentry entry' hentry' =>
    contents_eq_of_same (hintegers.2 entry hentry) (hcells' entry' hentry')) hordered, ?_, ?_, ?_⟩
  · exact (usable_commit s updates base).mpr hobject.usable
  · simpa only [isSummary, commit_extents, commit_heap] using hobject.single
  · intro entry hentry
    rw [commit_target]
    rcases mem_append.mp hentry with hmem | hmem
    · exact hintegers.1 entry hmem
    · exact hcells' entry hmem

omit hordered in
/-- A rewriting of the object leaves the cells of every other object alone. -/
theorem IntegerObject.getElem?_commit_of_ne (hrewrites : Rewrites updates ((key, cell) :: after) cells')
    {other : Nat} {held : Cell Int Double} (hbase : held.base ≠ base) :
    (s.commit updates).cells[other]? = some held ↔ s.cells[other]? = some held := by
  have huntouched {old} (hold : s.cells[other]? = some old)
      (hbase : old.base ≠ base) : ∀ update ∈ updates, update.1 ≠ other := by
    rintro update hupdate rfl
    obtain ⟨entry, hentry, hkey⟩ := hrewrites.mem_keys hupdate
    have hmem : entry ∈ cells := by
      rw [hcut.eq_append]
      exact mem_append_right _ hentry
    have hcell := hobject.chain.getElem? hmem
    rw [hkey, hold] at hcell
    cases hcell
    exact hbase (hobject.own entry hmem).1
  rw [getElem?_commit]
  constructor
  · intro hheld
    obtain ⟨old, hold, rfl⟩ := Option.map_eq_some_iff.mp hheld
    rw [hold, settle_of_forall_ne (huntouched hold hbase)]
  · intro hheld
    rw [hheld, Option.map_some, settle_of_forall_ne (huntouched hheld hbase)]

end

/-- A write to a byte of the object replaces bytes of its image, when they are there. -/
theorem write_integerObject (hobject : s.IntegerObject base extent cells) (hordered : s.Ordered)
    (htwos : s.target.complement = .twos) (hstrong : s.update = .strong)
    (hoffset : offset < extent.size) (hrange : s.target.InRange type n) :
    let bytes := image s.target cells
    let pattern := ofNat (s.target.encode type n) (s.target.intWidth type.rank)
    (offset + pattern.length ≤ extent.size → ∃ updates cells',
        write ⟨base, offset⟩ (.singleton (.int n type)) (.int type) false s =
          .ok ⟨⟩ (s.commit updates) ∧
        (s.commit updates).IntegerObject base extent cells' ∧
        image s.target cells' =
          bytes.take offset ++ pattern ++ bytes.drop (offset + pattern.length) ∧
        ∀ (key : Nat) (cell : Cell Int Double), cell.base ≠ base →
          ((s.commit updates).cells[key]? = some cell ↔ s.cells[key]? = some cell)) ∧
    (extent.size < offset + pattern.length →
      write ⟨base, offset⟩ (.singleton (.int n type)) (.int type) false s =
        .error (.memory (.writePastEnd ⟨base, offset⟩)) s) := by
  intro bytes pattern
  obtain ⟨before, after, key, cell, hcut⟩ := hobject.exists_cut hordered hoffset
  have hlength := length_image (hcut.integers hobject).1
  have hle := hcut.span_le
  obtain ⟨hok, herror⟩ := updates_integerObject hobject hordered hcut htwos hstrong hrange
  constructor
  · intro hfits
    obtain ⟨updates, cells', hupdates, hrewrites, hcells', himage⟩ := hok hfits
    refine ⟨updates, before ++ cells', ?_, hobject.commit hordered hcut hrewrites hcells', ?_,
      fun other held hbase => hobject.getElem?_commit_of_ne hcut hrewrites hbase⟩
    · rw [write, hupdates]
    · have hsplit : bytes = image s.target before ++ image s.target ((key, cell) :: after) := by
        rw [← image_append, ← hcut.eq_append]
      have hpast : offset + pattern.length - span before =
          offset - span before + pattern.length := by omega
      have htake : (image s.target before).take offset = image s.target before :=
        take_of_length_le (by omega)
      have hdrop : (image s.target before).drop (offset + pattern.length) = [] :=
        drop_of_length_le (by omega)
      rw [image_append, himage, hsplit, take_append, drop_append, htake, hdrop, hlength,
        hpast, nil_append]
      simp only [append_assoc]
      rfl
  · intro hoverrun
    rw [write, herror hoverrun]

end Write

/-- **Memory is flat.** An object of integers is read and written as the string of its
bytes. A read inside the object gives the integer that the bytes there spell; a write
inside it replaces those bytes by the pattern of the integer and touches no other object.
Outside the object both are memory faults, and the write changes nothing. -/
theorem integerObject_refines_bytes {s : Store Int Double} (hreach : s.Reachable)
    (htwos : s.target.complement = .twos) (hstrong : s.update = .strong) {base : Base}
    {extent : Extent} {cells : List (Nat × Cell Int Double)}
    (hobject : s.IntegerObject base extent cells) (type : IntType) (offset : Int) :
    let bytes := image s.target cells
    let width := s.target.intWidth type.rank
    let fits := 0 ≤ offset ∧ offset + width ≤ extent.size
    bytes.length = extent.size ∧
    (fits → s.read ⟨base, offset⟩ (.int type) = .ok (.singleton (.int (s.target.decode type (known
        ((bytes.drop offset.toNat).take width))) type))) ∧
    (¬fits → ∃ fault, s.read ⟨base, offset⟩ (.int type) = .error (.memory fault)) ∧
    ∀ n, s.target.InRange type n → (fits → ∃ s' cells',
        write ⟨base, offset⟩ (.singleton (.int n type)) (.int type) false s = .ok ⟨⟩ s' ∧
        s'.IntegerObject base extent cells' ∧
        image s'.target cells' = bytes.take offset.toNat ++
          .ofNat (s.target.encode type n) width ++ bytes.drop (offset.toNat + width) ∧
        s'.extents = s.extents ∧ s'.heap = s.heap ∧
        ∀ (key : Nat) (cell : Cell Int Double), cell.base ≠ base →
          (s'.cells[key]? = some cell ↔ s.cells[key]? = some cell)) ∧
      (¬fits → ∃ fault, write ⟨base, offset⟩ (.singleton (.int n type)) (.int type) false s =
          .error (.memory fault) s) := by
  intro bytes width fits
  have hordered := hreach.ordered
  have hlength : bytes.length = extent.size := by
    rw [length_image hobject.integers, hobject.toTiles.span_eq hordered]
  have hwidth : 0 < width := s.target.intWidth_pos type.rank
  refine ⟨hlength, ?_⟩
  by_cases hinside : 0 ≤ offset ∧ offset < extent.size
  · obtain ⟨o, rfl⟩ := Int.eq_ofNat_of_zero_le hinside.1
    have ho : o < extent.size := by omega
    have hfits : fits ↔ o + width ≤ extent.size := by omega
    have hread := read_integerObject hobject hordered type ho
    simp only [hfits, Int.toNat_natCast]
    refine ⟨fun hin => by rw [hread, if_pos hin], fun hout => ⟨_, by rw [hread, if_neg hout]⟩, ?_⟩
    intro n hrange
    obtain ⟨hok, herror⟩ := write_integerObject hobject hordered htwos hstrong ho hrange
    rw [length_ofNat] at hok herror
    refine ⟨fun hin => ?_, fun hout => ⟨_, herror (by omega)⟩⟩
    obtain ⟨updates, cells', hwrite, hobject', himage, hothers⟩ := hok hin
    exact ⟨s.commit updates, cells', hwrite, hobject', by rw [commit_target]; exact himage,
      commit_extents s updates, commit_heap s updates, hothers⟩
  · have hfits : ¬fits := by omega
    have hlocate : s.locate ⟨base, offset⟩ = .error (.memory (.outOfBounds ⟨base, offset⟩)) := by
      rw [locate_of_usable hobject.usable, hobject.allocated]
      dsimp only
      rw [if_pos (by omega)]
    refine ⟨fun hin => absurd hin hfits, fun _ => ⟨.outOfBounds ⟨base, offset⟩, ?_⟩, ?_⟩
    · rw [read, hlocate]
      rfl
    · refine fun n _ => ⟨fun hin => absurd hin hfits, fun _ => ⟨.outOfBounds ⟨base, offset⟩, ?_⟩⟩
      rw [write, updates, hlocate]
      rfl

/-- A heap block of an `int`, an `unsigned short` and a `short` that hold -2, 65535 and 3. -/
def mixedBlock : Store Int Double :=
  foldl Operation.after (new .packed .strong .concrete)
    [.malloc 0 ⟨[⟨4, .int .int⟩, ⟨2, .int ⟨.short, false⟩⟩, ⟨2, .int ⟨.short, true⟩⟩], 1⟩,
     .write ⟨.heap 0, 0⟩ (.singleton (.int (-2) .int)) (.int .int) false,
     .write ⟨.heap 0, 4⟩ (.singleton (.int 65535 ⟨.short, false⟩)) (.int ⟨.short, false⟩) false,
     .write ⟨.heap 0, 6⟩ (.singleton (.int 3 ⟨.short, true⟩)) (.int ⟨.short, true⟩) false]

/-- Four bytes that begin in one cell and end in the third are one number, and a write past
the last byte is refused. -/
theorem mixedBlock_refines_bytes :
    (∃ cells, mixedBlock.Reachable ∧ mixedBlock.IntegerObject (.heap 0) ⟨1, 8, false⟩ cells) ∧
    mixedBlock.read ⟨.heap 0, 3⟩ (.int .int) = .ok (.singleton (.int 0x03ffffff .int)) ∧
    ∃ fault, write ⟨.heap 0, 5⟩ (.singleton (.int 7 .int)) (.int .int) false mixedBlock =
      .error (.memory fault) mixedBlock := by
  have hreach : mixedBlock.Reachable := (Reachable.new _ _ _).foldl _
  have hobject : mixedBlock.IntegerObject (.heap 0) ⟨1, 8, false⟩
      [(1, ⟨.heap 0, 0, 4, .int .int, .singleton (.int (-2) .int), 0, 5⟩),
       (5, ⟨.heap 0, 4, 2, .int ⟨.short, false⟩, .singleton (.int 65535 ⟨.short, false⟩), 1, 7⟩),
       (7, ⟨.heap 0, 6, 2, .int ⟨.short, true⟩, .singleton (.int 3 ⟨.short, true⟩), 5, 0⟩)] := by
    refine ⟨⟨rfl, .cons (by decide) rfl (.cons (by decide) rfl (.cons (by decide) rfl .nil)), ?_⟩,
      ⟨_, rfl⟩, rfl, ?_⟩
    · simp
    · simp only [forall_mem_cons]
      refine ⟨⟨_, _, rfl, rfl, rfl, by decide⟩, ⟨_, _, rfl, rfl, rfl, by decide⟩,
        ⟨_, _, rfl, rfl, rfl, by decide⟩, by simp⟩
  have hread := (integerObject_refines_bytes hreach rfl rfl hobject .int 3).2.1 (by decide)
  have hwrite := (integerObject_refines_bytes hreach rfl rfl hobject .int 5).2.2.2 7 (by decide)
  exact ⟨⟨_, hreach, hobject⟩, hread, hwrite.2 (by decide)⟩
end CoreC.Store
