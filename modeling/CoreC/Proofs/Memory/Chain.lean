import CoreC.Proofs.Memory.Operation

/-! # Chains of cells

The links lead from the first cell of an object through all its cells. In a store that
operations built, the cells of an object whose units all take bytes tile its extent: each
starts where the one before it ends, so every byte lies in exactly one of them, and the
search for the nearest cell finds that one.
-/

namespace CoreC.Store

open List

variable {ι φ : Type}

/-- The cells met along the links from a key on. -/
inductive Chain (s : Store ι φ) : Nat → List (Nat × Cell ι φ) → Prop where
  | nil : Chain s noCell []
  | cons {key : Nat} {cell : Cell ι φ} {rest : List (Nat × Cell ι φ)} (hkey : key ≠ noCell)
      (hcell : s.cells[key]? = some cell) (hrest : Chain s cell.succ rest) :
      Chain s key ((key, cell) :: rest)

variable {cell : Cell ι φ} {before after : List (Nat × Cell ι φ)} {key start finish : Nat} {entry : Nat × Cell ι φ}
variable {s : Store ι φ}

theorem Chain.unique {cells others : List (Nat × Cell ι φ)}
    (hcells : s.Chain key cells) (hothers : s.Chain key others) : cells = others := by
  induction hcells generalizing others with
  | nil =>
    cases hothers with
    | nil => rfl
    | cons hkey => exact absurd rfl hkey
  | cons hkey hcell _ ih =>
    cases hothers with
    | nil => exact absurd rfl hkey
    | cons _ hother hrest =>
      rw [hcell] at hother
      cases hother
      rw [ih hrest]

variable {cells : List (Nat × Cell ι φ)}

/-- A cell that followed itself would never lead to the end. -/
theorem Chain.succ_ne (hchain : s.Chain key cells)
    (hcell : s.cells[key]? = some cell) (hkey : key ≠ noCell) : cell.succ ≠ key := by
  intro hself
  have hlength := congrArg length (hchain.unique (.cons hkey hcell (hself.symm ▸ hchain)))
  simp at hlength

theorem Chain.getElem? (hchain : s.Chain key cells)
    (hentry : entry ∈ cells) : s.cells[entry.1]? = some entry.2 := by
  induction hchain with
  | nil => cases hentry
  | cons _ hcell _ ih =>
    rcases mem_cons.mp hentry with rfl | hmem
    · exact hcell
    · exact ih hmem

theorem Chain.of_append (hchain : s.Chain start (before ++ (key, cell) :: after)) :
    s.Chain key ((key, cell) :: after) := by
  induction before generalizing start with
  | nil =>
    cases hchain with
    | cons hkey hcell hrest => exact .cons hkey hcell hrest
  | cons entry rest ih =>
    cases hchain with
    | cons _ _ hrest => exact ih hrest

/-- A cell of a list after new contents were installed. -/
def settled [DecidableEq ι] [BEq φ] (updates : List (Nat × ValueSet ι φ))
    (entry : Nat × Cell ι φ) : Nat × Cell ι φ :=
  (entry.1, { entry.2 with contents := settle entry.1 updates entry.2.contents })

/-- New contents leave the links alone. -/
theorem Chain.commit [DecidableEq ι] [BEq φ]
    (hchain : s.Chain key cells) (updates : List (Nat × ValueSet ι φ)) :
    (s.commit updates).Chain key (cells.map (settled updates)) := by
  induction hchain with
  | nil => exact .nil
  | cons hkey hcell _ ih => exact .cons hkey (by rw [getElem?_commit, hcell]; rfl) ih

/-- Bytes that cells take. -/
def span (cells : List (Nat × Cell ι φ)) : Nat :=
  cells.foldr (fun entry bytes => entry.2.size + bytes) 0

@[simp] theorem span_cons (entry : Nat × Cell ι φ) (rest : List (Nat × Cell ι φ)) :
    span (entry :: rest) = entry.2.size + span rest := rfl

@[simp] theorem span_append (cells others : List (Nat × Cell ι φ)) :
    span (cells ++ others) = span cells + span others := by
  induction cells with
  | nil => simp [span]
  | cons entry rest ih => simp [ih, Nat.add_assoc]

/-- Cells that lie one after the other from a position on, up to another. -/
def Laid : Nat → List (Nat × Cell ι φ) → Nat → Prop
  | start, [], finish => start = finish
  | start, (key, cell) :: rest, finish => key = start ∧ Laid (start + cell.size) rest finish

theorem Laid.add_span (hlaid : Laid start cells finish) : start + span cells = finish := by
  induction cells generalizing start with
  | nil => exact hlaid
  | cons entry rest ih =>
    have hrest := ih hlaid.2
    rw [span_cons]
    omega

theorem Laid.of_append (hlaid : Laid start (before ++ after) finish) :
    Laid (start + span before) after finish := by
  induction before generalizing start with
  | nil => exact hlaid
  | cons entry rest ih =>
    have hrest := ih hlaid.2
    simpa only [span_cons, Nat.add_assoc] using hrest

theorem Laid.le_key (hlaid : Laid start cells finish)
    (hentry : entry ∈ cells) : start ≤ entry.1 := by
  induction cells generalizing start with
  | nil => cases hentry
  | cons head rest ih =>
    rcases mem_cons.mp hentry with rfl | hmem
    · exact Nat.le_of_eq hlaid.1.symm
    · have hle := ih hlaid.2 hmem
      omega

theorem Laid.key_add_le (hlaid : Laid start (before ++ after) finish) (hentry : entry ∈ before) :
    entry.1 + entry.2.size ≤ start + span before := by
  induction before generalizing start with
  | nil => cases hentry
  | cons head rest ih =>
    rw [span_cons]
    rcases mem_cons.mp hentry with rfl | hmem
    · have hkey := hlaid.1
      omega
    · have hle := ih hlaid.2 hmem
      omega

/-- A cell that takes bytes comes only once. -/
theorem Laid.key_ne {rest : List (Nat × Cell ι φ)} (hlaid : Laid start ((key, cell) :: rest) finish)
    (hpos : 0 < cell.size) (hentry : entry ∈ rest) : entry.1 ≠ key := by
  have hle := hlaid.2.le_key hentry
  have hstart := hlaid.1
  omega

/-- Every position lies in one of the cells. -/
theorem Laid.exists_cell {position : Nat}
    (hlaid : Laid start cells finish) (hstart : start ≤ position) (hfinish : position < finish) :
    ∃ before key cell after, cells = before ++ (key, cell) :: after ∧
      key = start + span before ∧ key ≤ position ∧ position < key + cell.size := by
  induction cells generalizing start with
  | nil =>
    have hempty : start = finish := hlaid
    omega
  | cons entry rest ih =>
    obtain ⟨key, cell⟩ := entry
    obtain ⟨rfl, hrest⟩ := hlaid
    by_cases hwithin : position < key + cell.size
    · exact ⟨[], key, cell, rest, rfl, rfl, hstart, hwithin⟩
    · obtain ⟨before, key', cell', after, rfl, hkey, hle, hlt⟩ := ih hrest (by omega)
      refine ⟨(key, cell) :: before, key', cell', after, rfl, ?_, hle, hlt⟩
      simp only [span_cons]
      omega

/-- Each cell names the one before it. -/
def Backed : Nat → List (Nat × Cell ι φ) → Prop
  | _, [] => True
  | previous, (key, cell) :: rest => cell.pred = previous ∧ Backed key rest

theorem Backed.settled [DecidableEq ι] [BEq φ] {previous : Nat}
    (hbacked : Backed previous cells) (updates : List (Nat × ValueSet ι φ)) :
    Backed previous (cells.map (settled updates)) := by
  induction cells generalizing previous with
  | nil => trivial
  | cons entry rest ih => exact ⟨hbacked.1, ih hbacked.2⟩

/-- The cells of an allocated object whose units all take bytes. -/
structure Tiles (s : Store ι φ) (base : Base) (extent : Extent) (cells : List (Nat × Cell ι φ)) :
    Prop where
  allocated : s.extents[base]? = some extent
  chain : s.Chain extent.first cells
  own : ∀ entry ∈ cells, entry.2.base = base ∧ 0 < entry.2.size

variable {s : Store ι φ} {base : Base} {extent : Extent} {cells : List (Nat × Cell ι φ)}

theorem Chain.laid (hordered : s.Ordered) (hextent : s.extents[base]? = some extent)
    (hchain : s.Chain key cells) (hkey : key ≠ noCell)
    (hown : ∀ entry ∈ cells, entry.2.base = base ∧ 0 < entry.2.size) :
    Laid key cells (extent.first + extent.size) := by
  induction hchain with
  | nil => exact absurd rfl hkey
  | @cons key cell rest hkey hcell hrest ih =>
    obtain ⟨hbase, hpos⟩ := hown _ mem_cons_self
    obtain ⟨owner, howner, hplaced⟩ := hordered.placed hcell
    rw [hbase, hextent] at howner
    cases howner
    refine ⟨rfl, ?_⟩
    rcases hplaced.link hpos with ⟨hlast, hend⟩ | hnext | hself
    · rw [hlast] at hrest
      cases hrest with
      | nil => exact hend
      | cons hne => exact absurd rfl hne
    · rw [← hnext]
      refine ih ?_ fun entry hentry => hown entry (mem_cons_of_mem _ hentry)
      have hsize : 0 < cell.size := hpos
      rw [hnext, noCell]
      omega
    · exact absurd hself ((Chain.cons hkey hcell hrest).succ_ne hcell hkey)

theorem Tiles.laid (htiles : s.Tiles base extent cells) (hordered : s.Ordered) :
    Laid extent.first cells (extent.first + extent.size) := by
  have hfirst := (hordered.extent htiles.allocated).1
  refine htiles.chain.laid hordered htiles.allocated ?_ htiles.own
  rw [noCell]
  omega

theorem Tiles.span_eq (htiles : s.Tiles base extent cells) (hordered : s.Ordered) :
    span cells = extent.size := by
  have hspan := (htiles.laid hordered).add_span
  omega

/-- Whether an object may be accessed. -/
def Usable (s : Store ι φ) : Base → Prop
  | .null => False
  | .frame .. => True
  | .heap id => ∃ block, s.heap.liveBlock id = .ok block

theorem locate_of_usable (husable : s.Usable base) (offset : Int) : s.locate ⟨base, offset⟩ =
      match s.extents[base]? with
      | none => .error (.memory (.unallocatedAccess ⟨base, offset⟩))
      | some extent =>
        if offset < 0 ∨ extent.size ≤ offset then .error (.memory (.outOfBounds ⟨base, offset⟩))
        else
          match s.cells.getEntryLE? (extent.first + offset.toNat) with
          | some (key, cell) => .ok ⟨key, cell, extent.first + offset.toNat - key⟩
          | none => .error (.memory (.unallocatedAccess ⟨base, offset⟩)) := by
  unfold locate
  cases base with
  | null => exact husable.elim
  | frame frame name => rfl
  | heap id =>
    obtain ⟨block, hblock⟩ := husable
    exact Eq.trans (congrArg (· >>= fun _ => _) hblock) rfl

/-- Stores with related cells lead an address to related cells. -/
theorem locate_rel {κ ψ : Type} {s' : Store κ ψ} {R : Cell ι φ → Cell κ ψ → Prop}
    (hextents : s.extents = s'.extents) (hheap : s.heap = s'.heap)
    (hcells : ∀ key : Nat, Option.Rel R s.cells[key]? s'.cells[key]?) (address : Address) :
    Agree (fun place place' => place.key = place'.key ∧ place.within = place'.within ∧
      R place.cell place'.cell) (s.locate address) (s'.locate address) := by
  obtain ⟨base, offset⟩ := address
  by_cases husable : s'.Usable base
  · have husable' : s.Usable base := by
      cases base with
      | null => exact husable
      | frame => trivial
      | heap id => simpa only [Usable, hheap] using husable
    rw [locate_of_usable husable, locate_of_usable husable', hextents]
    split
    · exact .error _
    · split
      · exact .error _
      · rcases cases_rel (getEntryLE?_rel hcells _) with
          ⟨hnone, hnone'⟩ | ⟨entry, known, hentry, hknown, hkey, hcell⟩
        · rw [hnone, hnone']
          exact .error _
        · rw [hentry, hknown]
          exact .ok ⟨hkey, by rw [hkey], hcell⟩
  · unfold locate
    cases base with
    | null => exact .error _
    | frame => exact absurd trivial husable
    | heap id =>
      cases hblock : s'.heap.liveBlock id with
      | ok block => exact absurd ⟨block, hblock⟩ husable
      | error fault =>
        have hblock' : s.heap.liveBlock id = .error fault := by rw [hheap, hblock]
        dsimp only
        rw [hblock, hblock']
        exact .error fault

/-- An address that leads to a cell lies inside an object that may be accessed. -/
theorem locate_eq_ok {address : Address} {place : Place ι φ} (hplace : s.locate address = .ok place) :
    s.Usable address.base ∧ ∃ extent, s.extents[address.base]? = some extent ∧
      0 ≤ address.offset ∧ address.offset < extent.size ∧
      s.cells.getEntryLE? (extent.first + address.offset.toNat) = some (place.key, place.cell) ∧
      place.within = extent.first + address.offset.toNat - place.key := by
  obtain ⟨base, offset⟩ := address
  have husable : s.Usable base := by
    unfold locate at hplace
    cases base with
    | null => cases hplace
    | frame => trivial
    | heap id =>
      obtain ⟨block, hblock, -⟩ := exists_of_bind_ok hplace
      exact ⟨block, hblock⟩
  rw [locate_of_usable husable] at hplace
  refine ⟨husable, ?_⟩
  split at hplace
  · cases hplace
  next extent hextent =>
    split at hplace
    · cases hplace
    · split at hplace <;> cases hplace
      next hinside _ key cell hentry =>
        exact ⟨extent, hextent, by simp only; omega, by simp only; omega, hentry, rfl⟩

variable {offset : Nat}

section

variable (htiles : s.Tiles base extent (before ++ (key, cell) :: after))

include htiles

/-- A byte lies in the cell of the object that covers it. -/
theorem Tiles.nearest (hordered : s.Ordered) (hle : span before ≤ offset)
    (hlt : offset < span before + cell.size) :
    s.cells.getEntryLE? (extent.first + offset) = some (key, cell) := by
  have hkey : key = extent.first + span before := (htiles.laid hordered).of_append.1
  have hcell : s.cells[key]? = some cell :=
    htiles.chain.getElem? (mem_append_right before mem_cons_self)
  refine getEntryLE?_eq_some hcell (by omega) fun other held hheld hother => ?_
  rcases Nat.lt_or_ge key other with hlater | hearlier
  · have hapart := hordered.apart hcell hheld hlater
    omega
  · exact hearlier

theorem Tiles.locate_append
    (hordered : s.Ordered) (husable : s.Usable base) (hle : span before ≤ offset)
    (hlt : offset < span before + cell.size) :
    s.locate ⟨base, offset⟩ = .ok ⟨key, cell, offset - span before⟩ := by
  have hlaid := htiles.laid hordered
  have hkey : key = extent.first + span before := hlaid.of_append.1
  have hspan := hlaid.add_span
  rw [span_append, span_cons] at hspan
  dsimp only at hspan
  have hinside : ¬((offset : Int) < 0 ∨ (extent.size : Int) ≤ offset) := by omega
  rw [locate_of_usable husable, htiles.allocated]
  simp only [if_neg hinside, Int.toNat_natCast, htiles.nearest hordered hle hlt]
  congr 2
  omega

end

/-- Every byte of the object lies in a cell of its chain. -/
theorem Tiles.locate (htiles : s.Tiles base extent cells) (hordered : s.Ordered)
    (husable : s.Usable base) (hoffset : offset < extent.size) :
    ∃ before key cell after, cells = before ++ (key, cell) :: after ∧
      span before ≤ offset ∧ offset < span before + cell.size ∧
      s.locate ⟨base, offset⟩ = .ok ⟨key, cell, offset - span before⟩ := by
  obtain ⟨before, key, cell, after, rfl, hkey, hle, hlt⟩ :=
    (htiles.laid hordered).exists_cell (Nat.le_add_right _ offset) (by omega)
  have hbefore : span before ≤ offset := by omega
  have hafter : offset < span before + cell.size := by omega
  exact ⟨before, key, cell, after, rfl, hbefore, hafter,
    htiles.locate_append hordered husable hbefore hafter⟩

/-- Units appended later change a cell before them only by the link to the first of them. -/
theorem getElem?_appendCells (base : Base) (units : List StorageUnit)
    (cells : Std.TreeMap Nat (Cell ι φ)) {next : Nat} (offset previous : Nat) (hkey : key < next) :
    (appendCells base units cells next offset previous).1[key]? =
      if key = previous ∧ units ≠ [] then cells[key]?.map ({ · with succ := next })
      else cells[key]? := by
  induction units generalizing cells next offset previous with
  | nil => simp [appendCells]
  | cons unit rest ih =>
    have hne : key ≠ next := by omega
    rw [Tape.appendCells_cons, ih _ _ _ (by omega), Tape.getElem?_link]
    simp [hne]

/-- A cell of the tape with units appended is new, never written and of a unit's size, or an
old one with perhaps another successor. -/
theorem cases_appendCells (base : Base) (units : List StorageUnit)
    (cells : Std.TreeMap Nat (Cell ι φ)) (next offset previous : Nat)
    (hcell : (appendCells base units cells next offset previous).1[key]? = some cell) :
    (cell.contents = .singleton (.uninitialized cell.scalar) ∧
        ∃ unit ∈ units, cell.size = unit.size) ∨
      ∃ old, cells[key]? = some old ∧ cell = { old with succ := cell.succ } := by
  induction units generalizing cells next offset previous with
  | nil => exact .inr ⟨cell, hcell, rfl⟩
  | cons unit rest ih =>
    rw [Tape.appendCells_cons] at hcell
    rcases ih _ _ _ _ hcell with ⟨hfresh, hsize⟩ | ⟨linked, hlinked, heq⟩
    · obtain ⟨unit', hunit', hsize⟩ := hsize
      exact .inl ⟨hfresh, unit', mem_cons_of_mem _ hunit', hsize⟩
    · rw [Tape.getElem?_link] at hlinked
      split at hlinked
      · cases hlinked
        rw [heq]
        exact .inl ⟨rfl, unit, mem_cons_self, rfl⟩
      · split at hlinked
        · obtain ⟨old, hold, rfl⟩ := Option.map_eq_some_iff.mp hlinked
          exact .inr ⟨old, hold, heq⟩
        · exact .inr ⟨linked, hlinked, heq⟩

/-- The cells appended for units that all but the last take bytes form a chain that ends with the
last and is linked back. -/
theorem chain_appendCells (base : Base) (units : List StorageUnit) (hunits : units ≠ [])
    (hpos : ∀ unit ∈ units.dropLast, 0 < unit.size) (cells : Std.TreeMap Nat (Cell ι φ))
    {next offset previous : Nat} (hprevious : previous < next)
    (hcells : s.cells = (appendCells base units cells next offset previous).1) :
    ∃ chain, s.Chain next chain ∧
      chain.map (fun entry => (⟨entry.2.size, entry.2.scalar⟩ : StorageUnit)) = units ∧
      (∀ entry ∈ chain, entry.2.base = base) ∧ Backed previous chain := by
  induction units generalizing cells next offset previous with
  | nil => exact absurd rfl hunits
  | cons unit rest ih =>
    have hne : next ≠ noCell := by
      rw [noCell]
      omega
    have hprevious' : previous ≠ next := by omega
    rw [Tape.appendCells_cons] at hcells
    have hlinked := Tape.getElem?_link cells base unit next offset previous next
    rw [if_pos rfl, if_neg hprevious'] at hlinked
    cases rest with
    | nil =>
      rw [show Tape.link cells base unit next offset previous = s.cells from hcells.symm] at hlinked
      exact ⟨_, .cons hne hlinked .nil, rfl, by simp, rfl, trivial⟩
    | cons unit' rest =>
      have hunit := hpos unit (by simp)
      have hfirst := getElem?_appendCells base (unit' :: rest) (Tape.link cells base unit next offset previous)
        (offset + unit.size) next (show next < next + unit.size by omega)
      obtain ⟨chain, hchain, hshape, hbase, hbacked⟩ :=
        ih (by simp) (fun u hu => hpos u (mem_cons_of_mem _ hu)) _ (by omega) hcells
      rw [← hcells, if_pos ⟨rfl, by simp⟩, hlinked] at hfirst
      refine ⟨_, .cons hne hfirst hchain, by simp [hshape], ?_, rfl, hbacked⟩
      intro entry hentry
      rcases mem_cons.mp hentry with rfl | hmem
      · rfl
      · exact hbase entry hmem

/-- Allocating units that take bytes gives an object with one cell for each unit. -/
theorem tiles_addObject (s : Store ι φ) (base : Base) {units : List StorageUnit}
    (hunits : units ≠ []) (hpos : ∀ unit ∈ units, 0 < unit.size) (hnext : 0 < s.next) :
    ∃ extent cells, (s.addObject base units).Tiles base extent cells ∧
      cells.map (fun entry => (⟨entry.2.size, entry.2.scalar⟩ : StorageUnit)) = units ∧
      Backed noCell cells := by
  obtain ⟨chain, hchain, hshape, hbase, hbacked⟩ :=
    chain_appendCells (s := s.addObject base units) base units hunits
      (fun unit hunit => hpos unit (dropLast_subset _ hunit)) s.cells hnext rfl
  refine ⟨_, chain, ⟨Std.TreeMap.getElem?_insert_self, hchain, ?_⟩, hshape, hbacked⟩
  intro entry hentry
  have hunit : (⟨entry.2.size, entry.2.scalar⟩ : StorageUnit) ∈ units := by
    rw [← hshape]
    exact mem_map_of_mem hentry
  exact ⟨hbase entry hentry, hpos _ hunit⟩

end CoreC.Store
