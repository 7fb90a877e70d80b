import CoreC.Proofs.Domain.IntegerPattern
import CoreC.Proofs.Memory.Chain

/-! # Chains of integer cells

A cell that holds one integer shows the bytes of the integer's pattern. Along a chain of
such cells, collecting bytes cuts a piece out of the joined patterns, and packing bytes
anew puts a piece in, wherever the piece begins and ends.
-/

namespace CoreC

open BytePattern List Target

variable {length remaining fuel consumed : Nat}

/-- The bytes of a cell that holds one integer. -/
def Cell.image (t : Target) (cell : Cell Int Double) : BytePattern :=
  match cell.contents.items with
  | [.int n type] => .ofNat (t.encode type n) (t.intWidth type.rank)
  | _ => []

/-- A cell of an integer type that holds one integer of the type and nothing else. -/
def Cell.HoldsInteger (t : Target) (cell : Cell Int Double) : Prop :=
  ∃ n type, cell.scalar = .int type ∧ cell.size = t.intWidth type.rank ∧
    cell.contents = .singleton (.int n type) ∧ t.InRange type n

namespace Store

/-- The bytes of an object, in the order of its cells. -/
def image (t : Target) (cells : List (Nat × Cell Int Double)) : BytePattern :=
  cells.flatMap fun entry => entry.2.image t

variable {s : Store Int Double}

theorem valueBytes_int (s : Store Int Double) (n : Int) (type : IntType) :
    s.valueBytes (s.target.intWidth type.rank) (.int n type) =
      .ok (.ofNat (s.target.encode type n) (s.target.intWidth type.rank)) := by
  exact congrArg Except.ok (resize_of_length (length_ofNat _ _))

/-- Exact bytes of the width of an integer type stand for one integer. -/
theorem decode_of_isExact (s : Store Int Double) (type : IntType) {bytes : BytePattern}
    (hexact : bytes.isExact = true) (hlength : bytes.length = s.target.intWidth type.rank) :
    s.decode (.int type) bytes =
      .ok (.singleton (.int (s.target.decode type bytes.known) type)) := by
  unfold decode Value.ofBytes?
  rw [isInitialized_of_isExact hexact]
  change (Exact.ofBytes s.target type bytes).map _ = _
  rw [ofBytes_of_isExact _ _ hexact, resize_of_length hlength]
  rfl

variable {cell : Cell Int Double} {cells cells' : List (Nat × Cell Int Double)}
  {updates : List (Nat × ValueSet Int Double)} {within : Nat}

variable {t : Target}

theorem image_of_contents {n : Int} {type : IntType} (hcontents : cell.contents = .singleton (.int n type)) :
    cell.image t = .ofNat (t.encode type n) (t.intWidth type.rank) := by
  simp [Cell.image, hcontents, ValueSet.singleton]

theorem image_holdsInteger (hcell : cell.HoldsInteger t) :
    (cell.image t).length = cell.size ∧ (cell.image t).isExact = true := by
  obtain ⟨n, type, -, hsize, hcontents, -⟩ := hcell
  simp [image_of_contents hcontents, hsize]

/-- The byte pattern that an integer cell shows from a byte on. -/
theorem cellBytes_holdsInteger (hcell : cell.HoldsInteger s.target) (hfits : within + length ≤ cell.size) :
    s.cellBytes cell within length = .ok [((cell.image s.target).drop within).take length] := by
  have himage := (image_holdsInteger hcell).1
  obtain ⟨n, type, -, hsize, hcontents, -⟩ := hcell
  rw [← slice_eq_take_drop (by omega), image_of_contents hcontents]
  unfold cellBytes
  rw [hcontents, hsize]
  simp only [ValueSet.singleton, mapM_cons, mapM_nil, valueBytes_int]
  rfl

/-- A byte of the first cell, or the end of the object. -/
def StartsWithin (within : Nat) : List (Nat × Cell Int Double) → Prop
  | [] => within = 0
  | entry :: _ => within < entry.2.size

theorem startsWithin_zero (hpos : ∀ entry ∈ cells, 0 < entry.2.size) : StartsWithin 0 cells := by
  cases cells with
  | nil => rfl
  | cons entry rest => exact hpos entry mem_cons_self

theorem size_pos (hcell : cell.HoldsInteger t) : 0 < cell.size := by
  obtain ⟨n, type, -, hsize, -⟩ := hcell
  exact hsize ▸ t.intWidth_pos type.rank

variable {key : Nat}

theorem cell_of_getElem? (hcell : s.cells[key]? = some cell) : s.cell key = .ok cell := by
  rw [Store.cell, hcell]

variable (address : Address)

/-- One cell on the way of collecting bytes. -/
theorem collectBytes_cell (hkey : key ≠ noCell) (hcell : s.cells[key]? = some cell)
    (fuel within : Nat) (hremaining : 0 < remaining) {piece : BytePattern}
    (hpieces : s.cellBytes cell within (min (cell.size - within) remaining) = .ok [piece])
    (done : BytePattern) :
    s.collectBytes address (fuel + 1) key within remaining [done] =
      s.collectBytes address fuel cell.succ 0 (remaining - min (cell.size - within) remaining)
        [done ++ piece] := by
  obtain _ | more := remaining
  · omega
  rw [collectBytes, if_neg hkey, cell_of_getElem? hcell]
  · change (do
      let pieces ← s.cellBytes cell within (min (cell.size - within) (more + 1))
      _) = _
    rw [hpieces]
    rfl
  · exact Nat.succ_ne_zero more

/-- Bytes cut out of two strings come from the first as far as it reaches. -/
theorem take_drop_append (p q : BytePattern) (hwithin : within ≤ p.length) :
    ((p ++ q).drop within).take length = (p.drop within).take (min (p.length - within) length) ++
        q.take (length - min (p.length - within) length) := by
  have hmin : (p.drop within).take (min (p.length - within) length) = (p.drop within).take length := by
    rw [← length_drop, take_eq_take_iff]
    omega
  rw [drop_append_of_le_length hwithin, take_append, length_drop, hmin]
  congr 2
  omega

/-- Collecting bytes along a chain of integer cells cuts them out of the image. -/
theorem collectBytes_chain (hchain : s.Chain key cells)
    (hcells : ∀ entry ∈ cells, entry.2.HoldsInteger s.target) (hwithin : StartsWithin within cells)
    (hfuel : remaining ≤ fuel) (done : BytePattern) :
    s.collectBytes address fuel key within remaining [done] =
      if within + remaining ≤ (image s.target cells).length then
        .ok [done ++ ((image s.target cells).drop within).take remaining]
      else .error (.memory (.readPastEnd address)) := by
  induction hchain generalizing fuel within remaining done with
  | nil =>
    cases hwithin
    cases remaining with
    | zero => simp [collectBytes, image]
    | succ remaining =>
      obtain _ | fuel := fuel
      · omega
      simp [collectBytes, image]
  | @cons key cell rest hkey hcell hrest ih =>
    have hheld : cell.HoldsInteger s.target := hcells _ mem_cons_self
    have htail := fun entry hentry => hcells entry (mem_cons_of_mem (key, cell) hentry)
    have himage := (image_holdsInteger hheld).1
    have hwithin : within < cell.size := hwithin
    have hsplit : image s.target ((key, cell) :: rest) =
        cell.image s.target ++ image s.target rest := rfl
    rw [hsplit, length_append, himage, take_drop_append _ _ (by omega), himage]
    rcases Nat.eq_zero_or_pos remaining with rfl | hremaining
    · rw [if_pos (by omega)]
      simp [collectBytes]
    · obtain _ | fuel := fuel
      · omega
      have hpieces := cellBytes_holdsInteger hheld
        (show within + min (cell.size - within) remaining ≤ cell.size by omega)
      rw [collectBytes_cell address hkey hcell fuel within hremaining hpieces done,
        ih htail (startsWithin_zero fun entry hentry => size_pos (htail entry hentry)) (by omega)]
      have hbound : 0 + (remaining - min (cell.size - within) remaining) ≤
            (image s.target rest).length ↔
          within + remaining ≤ cell.size + (image s.target rest).length := by omega
      simp only [hbound, append_assoc, drop_zero]

variable {patch : BytePattern}

/-- An integer cell with some bytes replaced holds the integer that the bytes then spell. -/
theorem patchCell_holdsInteger (htwos : s.target.complement = .twos)
    (hheld : cell.HoldsInteger s.target) (hpatch : patch.isExact = true)
    (hfits : within + patch.length ≤ cell.size) :
    ∃ contents, s.patchCell cell within [patch] = .ok contents ∧
      Cell.HoldsInteger s.target { cell with contents } ∧
      Cell.image s.target { cell with contents } = (cell.image s.target).take within ++ patch ++
          (cell.image s.target).drop (within + patch.length) := by
  obtain ⟨hlength, hexact⟩ := image_holdsInteger hheld
  obtain ⟨n, type, hscalar, hsize, hcontents, hrange⟩ := hheld
  have hinside : within + patch.length ≤ (cell.image s.target).length := by omega
  have hspliced := isExact_splice hexact hpatch hinside
  have hwhole : ((cell.image s.target).splice within patch).length =
      s.target.intWidth type.rank := by
    rw [length_splice hinside]
    omega
  have hknown : ((cell.image s.target).splice within patch).known <
      2 ^ s.target.intBits type.rank := by
    rw [two_pow_intBits_eq, ← hwhole]
    exact known_lt hspliced
  refine ⟨.singleton (.int (s.target.decode type
    ((cell.image s.target).splice within patch).known) type), ?_, ?_, ?_⟩
  · have hbytes : s.valueBytes cell.size (.int n type) = .ok (cell.image s.target) := by
      rw [hsize, valueBytes_int, image_of_contents hcontents]
    have hdecode := decode_of_isExact s type hspliced hwhole
    rw [← orZero_of_isExact hexact] at hdecode
    unfold patchCell ValueSet.flatMap
    rw [hcontents, hscalar]
    simp only [ValueSet.singleton, ValueSet.flatMapList, foldlM_cons, foldlM_nil, hbytes,
      bind, Except.bind, hdecode, Except.map]
    rw [orZero_of_isExact hexact]
    rfl
  · exact ⟨_, type, hscalar, hsize, rfl, s.target.inRange_decode type _⟩
  · change ofNat (s.target.encode type _) _ = _
    rw [encode_decode_of_lt htwos hknown, ← hwhole, ofNat_known hspliced, splice_eq_append hinside]

/-- New contents for the first cells of a list, as an update names them. -/
inductive Rewrites : List (Nat × ValueSet Int Double) → List (Nat × Cell Int Double) →
    List (Nat × Cell Int Double) → Prop where
  | rest (cells : List (Nat × Cell Int Double)) : Rewrites [] cells cells
  | cell {updates : List (Nat × ValueSet Int Double)} {cells cells' : List (Nat × Cell Int Double)}
      (key : Nat) (cell : Cell Int Double) (contents : ValueSet Int Double)
      (hrest : Rewrites updates cells cells') :
      Rewrites ((key, contents) :: updates) ((key, cell) :: cells)
        ((key, { cell with contents }) :: cells')

/-- One cell on the way of packing bytes anew. -/
theorem repack_cell (hkey : key ≠ noCell) (hcell : s.cells[key]? = some cell)
    (fuel within : Nat) (hconsumed : consumed < patch.length) {taken : Nat}
    (htaken : min (cell.size - within) (patch.length - consumed) = taken) :
    s.repack address false [patch] patch.length (fuel + 1) key within consumed = (do
      let contents ← s.patchCell cell within [(patch.drop consumed).take taken]
      let rest ← s.repack address false [patch] patch.length fuel cell.succ 0 (consumed + taken)
      return (key, contents) :: rest) := by
  have hslice := slice_eq_take_drop (show consumed + taken ≤ patch.length by omega)
  rw [repack, if_neg (by omega), if_neg hkey, cell_of_getElem? hcell, ← hslice, ← htaken]
  rfl

theorem repack_of_le (patches : List BytePattern) (hdone : length ≤ consumed)
    (fuel key within : Nat) : s.repack address false patches length fuel key within consumed = .ok [] := by
  cases fuel with
  | zero => rw [repack, if_neg (by omega)]
  | succ fuel => rw [repack, if_pos hdone]

/-- Bytes put over two strings go into the first as far as it reaches. -/
theorem overwrite_append (p q patch : BytePattern) (hwithin : within ≤ p.length) :
    let taken := min (p.length - within) patch.length
    (p.take within ++ patch.take taken ++ p.drop (within + taken)) ++
        (patch.drop taken ++ q.drop (patch.length - taken)) =
      (p ++ q).take within ++ patch ++ (p ++ q).drop (within + patch.length) := by
  intro taken
  rw [take_append_of_le_length hwithin, drop_append]
  rcases Nat.le_total patch.length (p.length - within) with hinside | hacross
  · have htaken : taken = patch.length := Nat.min_eq_right hinside
    have hrest : within + patch.length - p.length = 0 := by omega
    simp [htaken, hrest]
  · have htaken : taken = p.length - within := Nat.min_eq_left hacross
    have hend : within + taken = p.length := by omega
    have hpast : p.drop (within + patch.length) = [] := drop_of_length_le (by omega)
    have hrest : within + patch.length - p.length = patch.length - taken := by omega
    rw [hend, drop_length, hpast, hrest]
    simp only [append_nil, nil_append, append_assoc]
    rw [← append_assoc (patch.take taken), take_append_drop]

/-- Packing bytes into a chain of integer cells replaces them in the image. -/
theorem repack_chain (htwos : s.target.complement = .twos) (address : Address) (hchain : s.Chain key cells)
    (hcells : ∀ entry ∈ cells, entry.2.HoldsInteger s.target) (hpatch : patch.isExact = true)
    (hwithin : StartsWithin within cells) (hconsumed : consumed ≤ patch.length)
    (hfuel : patch.length - consumed ≤ fuel) :
    (within + (patch.length - consumed) ≤ (image s.target cells).length → ∃ updates cells',
        s.repack address false [patch] patch.length fuel key within consumed = .ok updates ∧
        Rewrites updates cells cells' ∧ (∀ entry ∈ cells', entry.2.HoldsInteger s.target) ∧
        image s.target cells' = (image s.target cells).take within ++ patch.drop consumed ++
          (image s.target cells).drop (within + (patch.length - consumed))) ∧
    ((image s.target cells).length < within + (patch.length - consumed) →
      s.repack address false [patch] patch.length fuel key within consumed =
        .error (.memory (.writePastEnd address))) := by
  induction hchain generalizing fuel within consumed with
  | nil =>
    cases hwithin
    constructor
    · intro hfits
      have hdone : patch.length ≤ consumed := by
        simp only [image, flatMap_nil, length_nil] at hfits
        omega
      refine ⟨[], [], repack_of_le address _ hdone _ _ _, .rest [], by simp, ?_⟩
      simp [image, drop_of_length_le hdone]
    · intro hover
      have hmore : ¬patch.length ≤ consumed := by
        simp only [image, flatMap_nil, length_nil] at hover
        omega
      obtain _ | fuel := fuel
      · omega
      rw [repack, if_neg hmore, if_pos rfl]
  | @cons key cell rest hkey hcell hrest ih =>
    have hheld : cell.HoldsInteger s.target := hcells _ mem_cons_self
    have htail := fun entry hentry => hcells entry (mem_cons_of_mem (key, cell) hentry)
    have himage := (image_holdsInteger hheld).1
    have hwithin : within < cell.size := hwithin
    have hsplit changed others : image s.target ((key, changed) :: others) =
          changed.image s.target ++ image s.target others := rfl
    rw [hsplit, length_append, himage]
    rcases Nat.eq_or_lt_of_le hconsumed with rfl | hmore
    · constructor
      · intro hfits
        refine ⟨[], _, repack_of_le address _ (Nat.le_refl _) _ _ _, .rest _, hcells, ?_⟩
        simp [hsplit]
      · omega
    · obtain _ | fuel := fuel
      · omega
      have hover := overwrite_append (cell.image s.target) (image s.target rest)
        (patch.drop consumed) (Nat.le_of_lt (himage ▸ hwithin))
      simp only [length_drop, himage, drop_drop] at hover
      generalize htaken : min (cell.size - within) (patch.length - consumed) = taken at hover
      have hpiece : ((patch.drop consumed).take taken).length = taken := by
        rw [length_take, length_drop]
        omega
      obtain ⟨contents, hcontents, hnew, hbytes⟩ := patchCell_holdsInteger htwos hheld
        (isExact_take (isExact_drop hpatch consumed) taken)
        (show within + ((patch.drop consumed).take taken).length ≤ cell.size by omega)
      obtain ⟨hok, herror⟩ := ih htail
        (startsWithin_zero fun entry hentry => size_pos (htail entry hentry))
        (show consumed + taken ≤ patch.length by omega)
        (show patch.length - (consumed + taken) ≤ fuel by omega)
      rw [repack_cell address hkey hcell fuel within hmore htaken, hcontents]
      constructor
      · intro hfits
        obtain ⟨updates, cells', hrun, hrewrites, hheld', himage'⟩ := hok (by omega)
        refine ⟨(key, contents) :: updates, (key, { cell with contents }) :: cells', ?_,
          .cell key cell contents hrewrites, ?_, ?_⟩
        · rw [hrun]
          rfl
        · intro entry hentry
          rcases mem_cons.mp hentry with rfl | hmem
          · exact hnew
          · exact hheld' entry hmem
        · have hleft : patch.length - (consumed + taken) = patch.length - consumed - taken := by
            omega
          rw [hsplit, hbytes, hpiece, himage', take_zero, nil_append, Nat.zero_add, hleft]
          exact hover
      · intro hoverrun
        rw [herror (by omega)]
        rfl

/-- Contents of integer cells that count as the same are equal. -/
theorem contents_eq_of_same {cell' : Cell Int Double} (hheld : cell.HoldsInteger t)
    (hheld' : cell'.HoldsInteger t) (hsame : cell.contents.same cell'.contents = true) :
    cell.contents = cell'.contents := by
  obtain ⟨n, type, -, -, hcontents, -⟩ := hheld
  obtain ⟨n', type', -, -, hcontents', -⟩ := hheld'
  rw [hcontents, hcontents'] at hsame ⊢
  change ((decide (n = n') && decide (type = type')) && true) = true at hsame
  obtain ⟨hn, htype⟩ : n = n' ∧ type = type' := by simpa using hsame
  rw [hn, htype]

section

variable (hrewrites : Rewrites updates cells cells')
include hrewrites

theorem Rewrites.mem_keys {update : Nat × ValueSet Int Double} (hupdate : update ∈ updates) :
    ∃ entry ∈ cells, entry.1 = update.1 := by
  induction hrewrites with
  | rest => cases hupdate
  | cell key cell contents _ ih =>
    rcases mem_cons.mp hupdate with rfl | hmem
    · exact ⟨_, mem_cons_self, rfl⟩
    · obtain ⟨entry, hentry, hkey⟩ := ih hmem
      exact ⟨entry, mem_cons_of_mem _ hentry, hkey⟩

variable (hsame : ∀ entry ∈ cells, ∀ entry' ∈ cells', entry.2.contents.same entry'.2.contents = true →
  entry.2.contents = entry'.2.contents)
include hsame

/-- Installing the updates of a rewriting gives the rewritten cells. -/
theorem Rewrites.map_settle {start finish : Nat}
    (hlaid : Laid start cells finish) (hpos : ∀ entry ∈ cells, 0 < entry.2.size) :
    cells.map (settled updates) = cells' := by
  induction hrewrites generalizing start with
  | rest cells => exact map_id cells
  | @cell updates cells cells' key cell contents hrest ih =>
    have hothers {entry} (hentry : entry ∈ cells) : entry.1 ≠ key :=
      hlaid.key_ne (hpos _ mem_cons_self) hentry
    have hrest' := ih (fun entry hentry entry' hentry' =>
        hsame entry (mem_cons_of_mem _ hentry) entry' (mem_cons_of_mem _ hentry'))
      hlaid.2 (fun entry hentry => hpos entry (mem_cons_of_mem _ hentry))
    rw [map_cons, ← hrest']
    congr 1
    · have huntouched : ∀ update ∈ updates, update.1 ≠ key := by
        intro update hupdate
        obtain ⟨entry, hentry, hkey⟩ := hrest.mem_keys hupdate
        exact hkey ▸ hothers hentry
      rw [settled, settle, settle_of_forall_ne huntouched]
      cases hkept : cell.contents.same contents with
      | true =>
        have heq : cell.contents = contents := hsame _ mem_cons_self _ mem_cons_self hkept
        subst heq
        simp
      | false => simp
    · refine map_congr_left fun entry hentry => ?_
      have hne := hothers hentry
      rw [settled, settled, settle, if_neg (fun htouched => hne htouched.1.symm)]

/-- Installing a rewriting of the last cells of an object keeps the object, with those cells
rewritten. -/
theorem Tiles.rewrite {base : Base} {extent : Extent} {before : List (Nat × Cell Int Double)}
    (htiles : s.Tiles base extent (before ++ cells)) (hordered : s.Ordered) :
    (s.commit updates).Tiles base extent (before ++ cells') := by
  have hlaid := htiles.laid hordered
  have hown := htiles.own
  have hchain := htiles.chain.commit updates
  have hbefore : before.map (settled updates) = before := by
    refine (map_congr_left fun entry hentry => ?_).trans (map_id before)
    have huntouched : ∀ update ∈ updates, update.1 ≠ entry.1 := by
      intro update hupdate
      obtain ⟨touched, htouched, hkey⟩ := hrewrites.mem_keys hupdate
      have hle := hlaid.of_append.le_key htouched
      have hend := hlaid.key_add_le hentry
      have hpos := (hown entry (mem_append_left _ hentry)).2
      omega
    rw [settled, settle_of_forall_ne huntouched]
    rfl
  have hrest := hrewrites.map_settle hsame hlaid.of_append
    fun entry hentry => (hown entry (mem_append_right _ hentry)).2
  rw [map_append, hbefore, hrest] at hchain
  refine ⟨by rw [commit_extents]; exact htiles.allocated, hchain, ?_⟩
  intro entry hentry
  rcases mem_append.mp hentry with hmem | hmem
  · exact hown entry (mem_append_left _ hmem)
  · rw [← hrest] at hmem
    obtain ⟨old, hold, rfl⟩ := mem_map.mp hmem
    exact hown old (mem_append_right _ hold)

end

theorem usable_commit (s : Store Int Double) (updates : List (Nat × ValueSet Int Double)) (base : Base) :
    (s.commit updates).Usable base ↔ s.Usable base := by
  cases base <;> simp only [Usable, commit_heap]

theorem length_image (hcells : ∀ entry ∈ cells, entry.2.HoldsInteger t) :
    (image t cells).length = span cells := by
  induction cells with
  | nil => rfl
  | cons entry rest ih =>
    have hrest := ih fun other hother => hcells other (mem_cons_of_mem _ hother)
    have hhead := (image_holdsInteger (hcells entry mem_cons_self)).1
    simp only [image, flatMap_cons, length_append, span_cons] at hrest ⊢
    omega

theorem isExact_image (hcells : ∀ entry ∈ cells, entry.2.HoldsInteger t) :
    (image t cells).isExact = true := by
  induction cells with
  | nil => rfl
  | cons entry rest ih =>
    have hrest := ih fun other hother => hcells other (mem_cons_of_mem _ hother)
    exact isExact_append (image_holdsInteger (hcells entry mem_cons_self)).2 hrest

theorem image_append (t : Target) (cells others : List (Nat × Cell Int Double)) :
    image t (cells ++ others) = image t cells ++ image t others := flatMap_append

end Store

end CoreC
