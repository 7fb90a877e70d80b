import CoreC.Proofs.Memory.Access
import CoreC.Proofs.Memory.HeapRecords
import CoreC.Proofs.Value.Certain

/-! # Certain memory

Memory is sharp when every cell holds one value of the exact domain and no object stands for
more than one. Under strong updates and the concrete heap policy every operation that is given
single values keeps memory sharp, even when it fails; the exception is a second request for an
object that exists, which only the owner of a variable can make.
-/

namespace CoreC.Store

open ValueSet BytePattern Std.TreeMap Heap

/-- Every cell holds one value and no object stands for more than one. -/
structure Sharp (s : Store Int Double) : Prop where
  update : s.update = .strong
  policy : s.heap.policy = .concrete
  cells : ∀ {key : Nat} {cell : Cell Int Double}, s.cells[key]? = some cell → cell.contents.Single
  extents : ∀ {base : Base} {extent : Extent}, s.extents[base]? = some extent → extent.summary = false
  blocks : ∀ id, s.heap.isSummary id = false
  /-- Objects on the heap are numbered blocks. -/
  numbered : ∀ {id : Nat}, s.isAllocated (.heap id) = true → id < s.heap.blocks.size

/-- The same variables have memory. -/
def SameVariables (s s' : Store Int Double) : Prop :=
  ∀ frame name, s'.isAllocated (.frame frame name) = s.isAllocated (.frame frame name)

theorem sameVariables : Evolution SameVariables where
  refl _ _ _ := rfl
  trans hfirst hsecond frame name := (hsecond frame name).trans (hfirst frame name)

theorem sharp_new (target : Target) : (new target .strong .concrete : Store Int Double).Sharp where
  update := rfl
  policy := rfl
  cells hcell := by simp [new] at hcell
  extents hextent := by simp [new] at hextent
  blocks id := by simp [new, Heap.new, Heap.isSummary]
  numbered hallocated := by simp [new, isAllocated] at hallocated

variable {s : Store Int Double}

namespace Sharp

theorem isSummary (hs : s.Sharp) (base : Base) : s.isSummary base = false := by
  have hmarked : s.extents[base]?.any (·.summary) = false := by
    cases hextent : s.extents[base]? with
    | none => rfl
    | some extent => exact hs.extents hextent
  unfold Store.isSummary
  rw [hmarked]
  cases base with
  | heap id => exact hs.blocks id
  | null | frame => rfl

/-! ## Reading -/

theorem cellBytes {cell : Cell Int Double} (hcell : cell.contents.Single) {start length : Nat}
    {pieces : List BytePattern} (hpieces : s.cellBytes cell start length = .ok pieces) :
    Sole pieces := by
  obtain ⟨patterns, hpatterns, hpieces⟩ := exists_of_bind_ok hpieces
  cases hpieces
  obtain ⟨p, rfl, hp⟩ := sole_valueBytes hcell hpatterns
  exact ⟨p.slice start length, rfl, hp.slice start length⟩

variable {address : Address}

theorem collectBytes (hs : s.Sharp) {fuel key start remaining : Nat}
    {patterns out : List BytePattern} (hpatterns : Sole patterns)
    (hout : s.collectBytes address fuel key start remaining patterns = .ok out) :
    Sole out := by
  refine collectBytes_induction (fun hcell hpieces hread => ?_) hpatterns hout
  obtain ⟨p, rfl, hp⟩ := hread
  obtain ⟨piece, rfl, hpiece⟩ := cellBytes (hs.cells hcell) hpieces
  exact ⟨p ++ piece, rfl, hp.append hpiece⟩

theorem read (hs : s.Sharp) {scalar : Scalar} {out : ValueSet Int Double}
    (hout : s.read address scalar = .ok out) : out.Single := by
  obtain ⟨place, hplace, hout⟩ := exists_of_bind_ok hout
  split at hout
  · cases hout
    exact single_map (hs.cells (getElem?_of_locate hplace)) _
  · obtain ⟨patterns, hpatterns, hout⟩ := exists_of_bind_ok hout
    obtain ⟨p, rfl, hp⟩ := hs.collectBytes ⟨[], rfl, by simp [Definite]⟩ hpatterns
    refine single_foldlM rfl (fun bytes hbytes values hvalues => ?_) hout
    rw [List.mem_singleton.mp hbytes] at hvalues
    exact single_decode hp hvalues

/-! ## Writing -/

theorem commit (hs : s.Sharp) {updates : List (Nat × ValueSet Int Double)}
    (hupdates : ∀ entry ∈ updates, entry.2.Single) : (s.commit updates).Sharp where
  update := by rw [commit_update, hs.update]
  policy := by rw [commit_heap, hs.policy]
  cells := contents_commit (P := fun _ => Single) hs.cells fun entry hentry _ _ => hupdates entry hentry
  extents hextent := by
    rw [commit_extents] at hextent
    exact hs.extents hextent
  blocks id := by rw [commit_heap, hs.blocks]
  numbered hallocated := by
    rw [isAllocated, commit_extents] at hallocated
    rw [commit_heap]
    exact hs.numbered hallocated

theorem patchCell {cell : Cell Int Double} (hcell : cell.contents.Single) {start : Nat}
    {patches : List BytePattern} (hpatches : Sole patches) {out : ValueSet Int Double}
    (hout : s.patchCell cell start patches = .ok out) : out.Single := by
  refine single_foldlM hcell (fun old _ values hvalues => ?_) hout
  obtain ⟨bytes, hbytes, hvalues⟩ := exists_of_bind_ok hvalues
  obtain ⟨patch, rfl, hpatch⟩ := hpatches
  refine single_foldlM rfl (fun other hother decoded hdecoded => ?_) hvalues
  rw [List.mem_singleton.mp hother] at hdecoded
  exact single_decode ((definite_valueBytes hbytes).orZero.splice hpatch start) hdecoded

/-- No object stands for more than one, so a write that need not be weak is not. -/
theorem updates (hs : s.Sharp) {values : ValueSet Int Double}
    (hvalues : values.Single) {scalar : Scalar} {updates : List (Nat × ValueSet Int Double)}
    (hupdates : s.updates address values scalar false = .ok updates) :
    ∀ entry ∈ updates, entry.2.Single := by
  intro entry hentry
  obtain ⟨place, cell, fresh, -, -, hcell, hrenews, heq⟩ := exists_of_mem_updates hupdates hentry
  have hstrong : (false || decide (s.update = .weak) || s.isSummary address.base) = false := by
    simp [hs.update, hs.isSummary]
  rw [heq, hstrong]
  cases hrenews with
  | whole => exact single_map hvalues _
  | @packed patches within skipped taken _ hpatches hfresh =>
    have hslices := (sole_valueBytes hvalues hpatches).map fun p hp => hp.slice skipped taken
    exact patchCell (hs.cells hcell) hslices hfresh

theorem zeroUpdates {fuel key : Nat} {updates : List (Nat × ValueSet Int Double)}
    (hupdates : s.zeroUpdates fuel key = .ok updates) : ∀ entry ∈ updates, entry.2.Single := by
  intro entry hentry
  obtain ⟨-, cell, -, hcontents⟩ := (renewal_zeroUpdates hupdates).of_mem .refl entry hentry
  generalize entry.2 = contents at hcontents ⊢
  unfold zeroContents at hcontents
  split at hcontents
  · cases hcontents
    exact single_singleton _
  · exact single_decode (definite_of_isExact (isExact_zeros cell.size)) hcontents

/-! ## Allocating -/

theorem addObject (hs : s.Sharp) {base : Base} (units : List StorageUnit)
    (hbase : ∀ id, base = .heap id → id < s.heap.blocks.size) : (s.addObject base units).Sharp where
  update := hs.update
  policy := hs.policy
  cells := contents_addObject (P := fun _ => Single) hs.cells fun _ => single_singleton _
  extents {other extent} hextent := by
    unfold Store.addObject at hextent
    rw [getElem?_insert] at hextent
    split at hextent
    · cases hextent
      rfl
    · exact hs.extents hextent
  blocks := hs.blocks
  numbered {id} hallocated := by
    by_cases hsame : base = .heap id
    · exact hbase id hsame
    · unfold Store.addObject isAllocated at hallocated
      rw [contains_insert] at hallocated
      have hold : s.isAllocated (.heap id) = true := by simpa [isAllocated, hsame] using hallocated
      exact hs.numbered hold

/-- A request leaves only single blocks and numbers the new one last. -/
theorem withAllocated (hs : s.Sharp) (site : NodeId) (size : Nat) (kind : BlockKind) :
    ({ s with heap := (s.heap.allocate site size kind).2 } : Store Int Double).Sharp ∧
      (s.heap.allocate site size kind).2.blocks.size = s.heap.blocks.size + 1 := by
  have hunowned : s.heap.owned? site kind = none := by simp [owned?, hs.policy]
  have halloc : s.heap.allocate site size kind = ((s.heap.blocks.size, true),
      { s.heap with blocks := s.heap.blocks.push ⟨size, true, kind, site, false⟩ }) := by
    simp [Heap.allocate, hunowned, hs.policy]
  rw [halloc]
  refine ⟨⟨hs.update, hs.policy, hs.cells, hs.extents, fun id => ?_, fun hallocated => ?_⟩, ?_⟩
  · have hold := hs.blocks id
    unfold Heap.isSummary at hold ⊢
    simp only [Array.getElem?_push]
    split
    · rfl
    · exact hold
  · have hlt := hs.numbered hallocated
    simp only [Array.size_push]
    exact Nat.lt_succ_of_lt hlt
  · simp

theorem withFreed (hs : s.Sharp) {id : Nat} {heap : Heap} (hfree : s.heap.free id = .ok heap)
    (generation : Nat) : ({ s with heap, generation } : Store Int Double).Sharp := by
  obtain ⟨hpolicy, -, hsize⟩ := free_records hfree
  exact ⟨hs.update, hpolicy.trans hs.policy, hs.cells, hs.extents,
    fun other => (isSummary_free hfree other).trans (hs.blocks other),
    fun hallocated => hsize ▸ hs.numbered hallocated⟩

end Sharp

/-! ## Operations -/

/-- Whether it succeeds or fails, the operation leaves sharp memory sharp, and it takes memory
for no variable. -/
abbrev Sharpens {α : Type} (act : StoreM Int Double α) : Prop :=
  Secures Sharp SameVariables (fun _ => True) act fun _ _ => True

variable {α : Type}

theorem sharpens_of_leaves {act : StoreM Int Double α}
    (hact : ∀ s, s.Sharp → (leaves act s).Sharp ∧ s.SameVariables (leaves act s)) : Sharpens act :=
  fun s hs _ => ⟨(hact s hs).1, (hact s hs).2, fun _ _ _ => trivial⟩

/-- Writing single values leaves sharp memory sharp. -/
theorem sharpening : AllowsWrites (fun s s' => s.Sharp → s'.Sharp ∧ s.SameVariables s')
    fun s _ values _ forceWeak => s.Sharp → values.Single ∧ forceWeak = false where
  refl s hs := ⟨hs, sameVariables.refl s⟩
  trans hfirst hsecond hs := by
    obtain ⟨hmiddle, hsame⟩ := hfirst hs
    exact (hsecond hmiddle).imp_right (sameVariables.trans hsame)
  written {_ _ _ _ _ updates} hvalues hupdates hs := by
    obtain ⟨hsingle, rfl⟩ := hvalues hs
    exact ⟨hs.commit (hs.updates hsingle hupdates), fun _ _ => by rw [isAllocated, commit_extents]; rfl⟩

theorem sharpens_writeChars (address : Address) (type : IntType) (step : Nat) (text : List UInt8)
    (index : Nat) : Sharpens (writeChars address type step text index) :=
  sharpens_of_leaves (sharpening.writeChars address (fun _ _ _ _ => ⟨single_singleton _, rfl⟩) step text index)

theorem sharpens_zeroFill (base : Base) : Sharpens (zeroFill base) := by
  refine sharpens_of_leaves (sharpening.zeroFill base fun _ hupdates hs => ?_)
  exact ⟨hs.commit (Sharp.zeroUpdates hupdates), fun _ _ => by rw [isAllocated, commit_extents]; rfl⟩

theorem sharpens_free (address : Address) : Sharpens (free address : StoreM Int Double PUnit) := by
  refine sharpens_of_leaves fun s hs => ?_
  rcases leaves_free s address with hsame | ⟨id, heap, hfree, hleaves⟩
  · rw [hsame]
    exact ⟨hs, sameVariables.refl s⟩
  · rw [hleaves]
    exact ⟨hs.withFreed hfree _, fun _ _ => rfl⟩

/-- Taking memory for an object that is new leaves memory sharp. -/
theorem Sharp.leaves_allocate (hs : s.Sharp) {base : Base} (hnew : s.isAllocated base = false)
    (hbase : ∀ id, base = .heap id → id < s.heap.blocks.size) (layout : Layout) :
    (leaves (allocate base layout) s).Sharp ∧
      ∀ other, other ≠ base → (leaves (allocate base layout) s).isAllocated other = s.isAllocated other := by
  unfold leaves allocate
  rw [if_neg (by simp [hnew])]
  by_cases hempty : layout.units.isEmpty ∨ layout.count = 0
  · rw [if_pos hempty]
    exact ⟨hs, fun _ _ => rfl⟩
  · rw [if_neg hempty]
    refine ⟨hs.addObject layout.flatten hbase, fun other hother => ?_⟩
    simp [isAllocated, contains_insert, hother.symm]

/-- The last block is laid out when it is new. -/
theorem secures_allocateBlock (id : Nat) (layout : Layout) :
    Secures Sharp SameVariables (fun s => s.isAllocated (.heap id) = false ∧ id < s.heap.blocks.size)
      (allocate (.heap id) layout : StoreM Int Double Address) fun _ _ => True := by
  rintro s hs ⟨hnew, hlt⟩
  obtain ⟨hsharp, hsame⟩ := hs.leaves_allocate hnew (fun other hother => by cases hother; exact hlt) layout
  exact ⟨hsharp, fun frame name => hsame _ (by simp), fun _ _ _ => trivial⟩

/-- A request that gets a new block goes on in sharp memory, with the block not laid out. -/
theorem sharpens_request {site : NodeId} {size : Nat} {kind : BlockKind} {act : StoreM Int Double α}
    {next : Store Int Double → StoreM Int Double α}
    (hact : ∀ s, s.heap.owned? site kind = none → act s = next s
      { s with heap := (s.heap.allocate site size kind).2 })
    (hnext : ∀ before, Secures Sharp SameVariables
      (fun s => s.isAllocated (.heap before.heap.blocks.size) = false ∧
        before.heap.blocks.size < s.heap.blocks.size) (next before) fun _ _ => True) :
    Sharpens act := by
  refine sharpens_of_leaves fun s hs => ?_
  obtain ⟨hs', hsize⟩ := hs.withAllocated site size kind
  have hnew : s.isAllocated (.heap s.heap.blocks.size) = false := by
    by_contra hallocated
    exact Nat.lt_irrefl _ (hs.numbered (by simpa using hallocated))
  have hlt : s.heap.blocks.size < (s.heap.allocate site size kind).2.blocks.size := by
    rw [hsize]
    exact Nat.lt_succ_self _
  obtain ⟨hsharp, hsame, -⟩ := hnext s _ hs' ⟨hnew, hlt⟩
  rw [leaves, hact s (by simp [owned?, hs.policy])]
  exact ⟨hsharp, hsame⟩

theorem sharpens_literal (site : NodeId) (text : List UInt8) :
    Sharpens (literal site text : StoreM Int Double Address) := by
  refine sharpens_request (fun s hunowned => literal_of_unowned hunowned text) fun before => ?_
  refine .bind sameVariables (secures_allocateBlock _ _) fun _ => ?_
  refine .bind sameVariables (sharpens_writeChars _ _ _ _ _) fun _ => ?_
  exact .pure sameVariables fun _ _ _ => trivial

end CoreC.Store
