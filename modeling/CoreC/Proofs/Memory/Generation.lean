import CoreC.Proofs.Memory.Lifetime
import CoreC.Proofs.Memory.Refusal
import CoreC.Proofs.Memory.Walks

/-! # The age of memory

The generation of a store grows with every change of contents and with every block that is freed,
and not otherwise. It says nothing of new objects, of new blocks and of freed blocks that serve
again, and it grows when a summary is freed, which changes nothing.
-/

namespace CoreC

open List

/-- Whether the block may be used. -/
def Heap.isLive (h : Heap) (id : Nat) : Bool := h.blocks[id]?.any (·.live)

/-- The request is served by a block that was freed. -/
def Heap.Revives (h : Heap) (site : NodeId) (kind : BlockKind) : Prop :=
  ∃ id block, h.owned? site kind = some id ∧ h.blocks[id]? = some block ∧ block.live = false

/-- A new block is live, and of the others only one that serves again may become so. -/
theorem Heap.isLive_allocate_iff (h : Heap) (site : NodeId) (size : Nat) (kind : BlockKind) :
    (∃ id, h.isLive id ≠ (h.allocate site size kind).2.isLive id) ↔
      h.owned? site kind = none ∨ h.Revives site kind := by
  cases howned : h.owned? site kind with
  | none => exact iff_of_true ⟨h.blocks.size, by simp [isLive, allocate, howned]⟩ (.inl rfl)
  | some owned =>
    simp only [isLive, allocate, howned, Revives, Array.getElem?_modify]
    constructor
    · rintro ⟨id, hdiffers⟩
      split at hdiffers
      next hsame =>
        subst hsame
        cases hblock : h.blocks[owned]? with
        | none => simp [hblock] at hdiffers
        | some block => exact .inr ⟨owned, block, rfl, hblock, by simpa [hblock, reuse] using hdiffers⟩
      next => exact absurd rfl hdiffers
    · rintro (hnone | ⟨_, block, ⟨⟩, hblock, hdead⟩)
      · cases hnone
      · exact ⟨owned, by simp [hblock, hdead, reuse]⟩

/-- A block that can be freed goes on living if it is a summary. -/
theorem Heap.isLive_free_iff {h h' : Heap} {id : Nat} (hfree : h.free id = .ok h') :
    (∃ other, h.isLive other ≠ h'.isLive other) ↔ ¬h.isSummary id := by
  obtain ⟨block, hblock, -, ⟨hsummary, rfl⟩ | ⟨hsummary, hlive, rfl⟩⟩ := free_eq_ok hfree
  · simp [isSummary, hblock, hsummary]
  · refine iff_of_true ⟨id, ?_⟩ (by simp [isSummary, hblock, hsummary])
    simp [isLive, Array.getElem?_modify, hblock, hlive]

namespace Store

variable {ι φ : Type} {s : Store ι φ} {key : Nat} {cells : List (Nat × Cell ι φ)}

/-- Reads can tell the stores apart: the contents of a cell differ, or the objects that there are,
or the blocks that are live. -/
def Differs (s s' : Store ι φ) : Prop :=
  (∃ key : Nat, s.cells[key]?.map (·.contents) ≠ s'.cells[key]?.map (·.contents)) ∨
  (∃ base, s.isAllocated base ≠ s'.isAllocated base) ∨ ∃ id, s.heap.isLive id ≠ s'.heap.isLive id

theorem differs_self (s : Store ι φ) : ¬s.Differs s := by simp [Differs]

/-- The generation grows if and only if reads can tell the stores apart. -/
def Counts (s s' : Store ι φ) : Prop := s.generation < s'.generation ↔ s.Differs s'

theorem counts_self (s : Store ι φ) : s.Counts s := iff_of_false (Nat.lt_irrefl _) s.differs_self

theorem counts_iff_of_generation_eq {s' : Store ι φ} (hsame : s'.generation = s.generation) :
    s.Counts s' ↔ ¬s.Differs s' := by
  rw [Counts, hsame]
  simp

theorem differs_withHeap (s : Store ι φ) (heap : Heap) (generation : Nat) :
    s.Differs { s with heap, generation } ↔ ∃ id, s.heap.isLive id ≠ heap.isLive id := by
  simp [Differs, isAllocated]

theorem differs_markSummary (s s' : Store ι φ) (base : Base) : s.Differs (s'.markSummary base) ↔ s.Differs s' := by
  simp [Differs, isAllocated, markSummary, Std.TreeMap.contains_modify]

/-! ## Operations -/

theorem generation_allocate (s : Store ι φ) (base : Base) (layout : Layout) :
    (leaves (allocate base layout) s).generation = s.generation := by
  rcases leaves_allocate s base layout with heq | heq | ⟨-, -, -, heq⟩ <;> rw [heq] <;> rfl

theorem counts_allocate_iff (s : Store ι φ) (base : Base) (layout : Layout) :
    s.Counts (leaves (allocate base layout) s) ↔
      ¬(¬s.isAllocated base ∧ layout.units ≠ [] ∧ layout.count ≠ 0) := by
  rw [counts_iff_of_generation_eq (generation_allocate s base layout), not_iff_not]
  constructor
  · intro hdiffers
    rcases leaves_allocate s base layout with heq | heq | ⟨hnone, hunits, hcount, -⟩
    · rw [heq, differs_markSummary] at hdiffers
      exact absurd hdiffers s.differs_self
    · rw [heq] at hdiffers
      exact absurd hdiffers s.differs_self
    · exact ⟨by simpa [isAllocated] using hnone, hunits, hcount⟩
  · rintro ⟨hnone, hunits, hcount⟩
    refine .inr (.inl ⟨base, ?_⟩)
    rw [leaves_of_ok (allocate_of_new hnone layout hunits hcount), Bool.eq_false_iff.mpr hnone]
    simp [isAllocated, addObject]

theorem counts_malloc_iff (s : Store ι φ) (site : NodeId) (layout : Layout) :
    s.Counts (leaves (malloc site layout) s) ↔
      ¬(s.heap.owned? site .malloc = none ∨ s.heap.Revives site .malloc) := by
  have hlive := s.heap.isLive_allocate_iff site layout.size .malloc
  have hgeneration : (leaves (malloc site layout) s).generation = s.generation := by
    rw [leaves, malloc_eq]
    split_ifs
    · exact generation_allocate _ _ layout
    · rfl
  rw [counts_iff_of_generation_eq hgeneration, not_iff_not]
  cases howned : s.heap.owned? site .malloc with
  | none =>
    refine iff_of_true (.inr (.inr ?_)) (.inl rfl)
    rw [heap_malloc, hlive]
    exact .inl howned
  | some id =>
    rw [leaves, malloc_eq, if_neg (by simp [Heap.allocate, howned]), differs_markSummary,
      differs_withHeap, hlive, howned]

theorem counts_free_iff (s : Store ι φ) (address : Address) : s.Counts (leaves (free address) s) ↔
      ¬(¬Fails (free address) s ∧ ∃ id, address.base = .heap id ∧ s.heap.isSummary id) := by
  rcases free_cases s address with ⟨fault, hrun⟩ | ⟨hnull, hrun⟩ | ⟨id, heap, hbase, hfree, hrun⟩
  · rw [leaves_of_error hrun]
    exact iff_of_true s.counts_self fun hfreed => hfreed.1 ⟨fault, s, hrun⟩
  · rw [leaves_of_ok hrun]
    refine iff_of_true s.counts_self ?_
    rintro ⟨-, id, hbase, -⟩
    cases hnull.symm.trans hbase
  · have hgranted : ¬Fails (free address) s := by
      rintro ⟨fault, s', hrefused⟩
      cases hrun.symm.trans hrefused
    rw [leaves_of_ok hrun, Counts, differs_withHeap, Heap.isLive_free_iff hfree]
    simp [hgranted, hbase]

/-! ## Contents -/

/-- The links lead on from every cell to the end of its object. -/
theorem Sound.chain (hs : s.Sound) {cell : Cell ι φ} (hcell : s.cells[key]? = some cell) :
    ∃ cells, s.Chain key cells := by
  obtain ⟨extent, hextent, -⟩ := hs.ordered.placed hcell
  obtain ⟨cells, hthreads⟩ := hs.threads hextent
  obtain ⟨before, after, rfl⟩ := append_of_mem ((hthreads.own key cell).mpr ⟨hcell, rfl⟩)
  exact ⟨_, hthreads.forward.of_append⟩

variable [DecidableEq ι] [BEq φ] {updates : List (Nat × ValueSet ι φ)}

/-- Of contents for different cells the first that are not what the cell holds are there in the end. -/
theorem exists_settle_ne {cells : Std.TreeMap Nat (Cell ι φ)} (hnodup : (updates.map (·.1)).Nodup)
    (hself : ∀ {key : Nat} {cell : Cell ι φ}, cells[key]? = some cell → cell.contents.same cell.contents = true)
    (hchanged : (install updates cells false).2 = true) :
    ∃ key cell, cells[key]? = some cell ∧ settle key updates cell.contents ≠ cell.contents := by
  induction updates with
  | nil => cases hchanged
  | cons entry rest ih =>
    obtain ⟨touched, contents⟩ := entry
    obtain ⟨hfirst, hrest⟩ := nodup_cons.mp hnodup
    by_cases hfound : ∃ cell, cells[touched]? = some cell ∧ cell.contents.same contents = false
    · obtain ⟨cell, hcell, hdiffers⟩ := hfound
      refine ⟨touched, cell, hcell, ?_⟩
      rw [settle, if_pos ⟨rfl, by simp [hdiffers]⟩, settle_of_forall_ne fun other hother hsame => hfirst ?_]
      · rintro rfl
        rw [hself hcell] at hdiffers
        cases hdiffers
      · exact mem_map.mpr ⟨other, hother, hsame⟩
    · have hlater : (install rest cells false).2 = true := by
        unfold install at hchanged
        split at hchanged
        · split at hchanged
          · exact hchanged
          next hcell hdiffers => exact absurd ⟨_, hcell, Bool.eq_false_iff.mpr hdiffers⟩ hfound
        · exact hchanged
      obtain ⟨key, cell, hcell, hne⟩ := ih hrest hlater
      refine ⟨key, cell, hcell, ?_⟩
      rwa [settle, if_neg]
      rintro ⟨rfl, hdiffers⟩
      exact hfound ⟨cell, hcell, by simpa using hdiffers⟩

/-- Every value that a cell holds is the same as itself, so none is a float that is not a number. -/
def Reflexive (s : Store ι φ) : Prop :=
  ∀ {key : Nat} {cell : Cell ι φ}, s.cells[key]? = some cell → cell.contents.same cell.contents = true

/-- New contents for different cells are counted if there are any. -/
theorem counts_commit (hself : s.Reflexive) (hnodup : (updates.map (·.1)).Nodup) :
    s.Counts (s.commit updates) := by
  cases hchanged : (install updates s.cells false).2 with
  | false =>
    rw [show s.commit updates = s by simp [commit, hchanged]]
    exact s.counts_self
  | true =>
    refine iff_of_true (by simp [commit, hchanged]) (.inl ?_)
    obtain ⟨key, cell, hcell, hne⟩ := exists_settle_ne hnodup hself hchanged
    exact ⟨key, by simpa [getElem?_commit, hcell] using hne.symm⟩

/-- Contents that were never written are not the same as a value. -/
theorem same_eq_false {contents : ValueSet ι φ} (hunwritten : ∀ v ∈ contents.items, v.isInitialized = false)
    {v : Value ι φ} (hv : v.isInitialized = true) : contents.same (.singleton v) = false := by
  obtain ⟨items⟩ := contents
  cases items with
  | nil => rfl
  | cons held rest =>
    have hheld := hunwritten held mem_cons_self
    have hdiffers : (held == v) = false := by
      cases held with
      | int | float | pointer | function => cases hheld
      | uninitialized =>
        cases v with
        | int | float | pointer | function => rfl
        | uninitialized => cases hv
    simp [ValueSet.same, ValueSet.singleton, hdiffers]

variable [Domain ι φ]

/-- A write has new contents for different cells. -/
theorem Sound.nodup_updates (hs : s.Sound) {address : Address} {values : ValueSet ι φ} {scalar : Scalar}
    {forceWeak : Bool} (hupdates : s.updates address values scalar forceWeak = .ok updates) :
    (updates.map (·.1)).Nodup := by
  obtain ⟨place, hplace, hupdates⟩ := exists_of_bind_ok hupdates
  dsimp only at hupdates
  split at hupdates
  · cases hupdates
    exact nodup_singleton _
  · obtain ⟨patches, -, hupdates⟩ := exists_of_bind_ok hupdates
    obtain ⟨cells, hchain⟩ := hs.chain (getElem?_of_locate hplace)
    exact hchain.nodup.sublist (hchain.keys_renewal (renewal_repack hupdates))

/-- The generation never goes back. -/
theorem counting : Allows (fun _ => True) fun s s' : Store ι φ => s.generation ≤ s'.generation where
  refl _ := Nat.le_refl _
  trans := Nat.le_trans
  recorded _ _ _ _ := Nat.le_refl _
  freed _ := Nat.le_succ _
  summary _ _ := Nat.le_refl _
  object _ _ _ _ := Nat.le_refl _
  written {s _ _ _ _ updates} _ _ := by
    unfold commit
    dsimp only
    split
    · exact Nat.le_succ _
    · exact Nat.le_refl _

/-- The first character that is written is counted. -/
theorem CharObject.generation_lt {base : Base} {step count : Nat} (hs : s.CharObject base step (count + 1))
    (hunwritten : ∀ {key : Nat} {cell : Cell ι φ}, s.cells[key]? = some cell → cell.base = base →
      ∀ v ∈ cell.contents.items, v.isInitialized = false) {byte : UInt8} {rest : List UInt8} {s' : Store ι φ}
    (hwritten : Store.writeChars ⟨base, 0⟩ .char step (byte :: rest) 0 s = .ok ⟨⟩ s') :
    s.generation < s'.generation := by
  obtain ⟨⟨⟩, middle, hfirst, hrest⟩ := bind_eq_ok.mp (get_bind_eq_ok.mp hwritten)
  obtain ⟨key, cell, weak, hcell, ⟨hbase, -⟩, hwrite⟩ :=
    hs.write (v := .ofInt s.target .char (Number.signedWord 8 byte.toNat)) (Nat.succ_pos count) rfl
  rw [hwrite] at hfirst
  cases hfirst
  rw [← leaves_of_ok hrest]
  refine Nat.lt_of_lt_of_le ?_ (counting.writeChars _ (fun _ _ _ => trivial) _ _ _ _)
  have hold := hunwritten hcell hbase
  rw [merge, if_neg (by simpa [ValueSet.allUninitialized] using fun _ => hold)]
  have hdiffers (data : ι) := same_eq_false hold (v := .int data .char) rfl
  simp [Store.commit, install, hcell, hdiffers, Value.ofInt]

theorem Ordered.generation_lt_literal (hordered : s.Ordered) {site : NodeId}
    (hunowned : s.heap.owned? site .literal = none) (hnew : ¬s.isAllocated (.heap s.heap.blocks.size))
    (text : List UInt8) : s.generation < (leaves (literal site text) s).generation := by
  obtain ⟨hobject, s', hwritten, hliteral⟩ := hordered.literal_eq_ok hunowned hnew text
  obtain ⟨byte, rest, hcons⟩ : ∃ byte rest, text ++ [0] = byte :: rest := by cases text <;> simp
  rw [leaves_of_ok hliteral]
  rw [hcons] at hwritten
  refine hobject.generation_lt (fun hcell hbase => ?_) hwritten
  refine unwritten_addObject (s := { s with heap := (s.heap.allocate site (text.length + 1) .literal).2 })
    hordered ?_ _ hcell hbase
  simpa [isAllocated] using hnew

/-- A literal is counted when it is written, and a block that serves again is not. -/
theorem Ordered.counts_literal_iff (hordered : s.Ordered) (hnew : ¬s.isAllocated (.heap s.heap.blocks.size))
    (site : NodeId) (text : List UInt8) :
    s.Counts (leaves (literal site text) s) ↔ ¬s.heap.Revives site .literal := by
  have hlive := s.heap.isLive_allocate_iff site (text.length + 1) .literal
  cases howned : s.heap.owned? site .literal with
  | some id =>
    have hserved := leaves_of_ok (literal_of_owned howned text)
    rw [counts_iff_of_generation_eq (by rw [hserved]), hserved, differs_withHeap, hlive, howned,
      or_iff_right (by simp)]
  | none =>
    refine iff_of_true (iff_of_true (hordered.generation_lt_literal howned hnew text) (.inr (.inr ?_))) ?_
    · rw [heap_literal, hlive]
      exact .inl howned
    · rintro ⟨id, block, hid, -⟩
      cases howned.symm.trans hid

theorem Sound.counts_write (hs : s.Sound) (hself : s.Reflexive) (address : Address) (values : ValueSet ι φ)
    (scalar : Scalar) (forceWeak : Bool) : s.Counts (leaves (write address values scalar forceWeak) s) := by
  rw [leaves, Store.write]
  cases hupdates : s.updates address values scalar forceWeak with
  | ok updates => exact counts_commit hself (hs.nodup_updates hupdates)
  | error fault => exact s.counts_self

theorem Sound.counts_zeroFill (hs : s.Sound) (hself : s.Reflexive) (base : Base) :
    s.Counts (leaves (zeroFill base) s) := by
  rcases leaves_zeroFill s base with heq | ⟨extent, updates, hextent, hupdates, heq⟩ <;> rw [heq]
  · exact s.counts_self
  · obtain ⟨cells, htiles, -⟩ := hs.tiled hextent
    have hkeys := htiles.chain.keys_renewal (renewal_zeroUpdates hupdates)
    exact counts_commit hself (htiles.chain.nodup.sublist hkeys)

/-- The generation does not tell what the operation does: an object or a block is new, a block that was
freed serves again, or a summary is freed. -/
def Operation.Miscounted (s : Store ι φ) : Operation ι φ → Prop
  | .allocate base layout => ¬s.isAllocated base ∧ layout.units ≠ [] ∧ layout.count ≠ 0
  | .malloc site _ => s.heap.owned? site .malloc = none ∨ s.heap.Revives site .malloc
  | .literal site _ => s.heap.Revives site .literal
  | .free address => ¬(Operation.free address).Refused s ∧ ∃ id, address.base = .heap id ∧ s.heap.isSummary id
  | _ => False

/-- **What the generation counts.** Where cells take bytes, hold no float that is not a number, and no
object stands under the number of the next block, the generation grows with an operation if and only
if reads can tell its outcome, for all operations but those that are miscounted. -/
theorem generation_counts_iff (hs : s.Sound) (hself : s.Reflexive)
    (hnew : ¬s.isAllocated (.heap s.heap.blocks.size)) (operation : Operation ι φ) :
    (s.generation < (operation.after s).generation ↔ s.Differs (operation.after s)) ↔ ¬operation.Miscounted s := by
  cases operation with
  | allocate base layout => exact counts_allocate_iff s base layout
  | malloc site layout => exact counts_malloc_iff s site layout
  | literal site text => exact hs.ordered.counts_literal_iff hnew site text
  | free address => exact counts_free_iff s address
  | write address values scalar forceWeak =>
    exact iff_of_true (hs.counts_write hself address values scalar forceWeak) id
  | zeroFill base => exact iff_of_true (hs.counts_zeroFill hself base) id
  | markSummary base =>
    refine iff_of_true (iff_of_false (Nat.lt_irrefl _) ?_) id
    rw [Operation.after, differs_markSummary]
    exact s.differs_self

/-- A number that is written twice, into the block of a site. -/
def writtenTwice : List (Operation Int Double) :=
  [.malloc 0 ⟨[⟨4, .int .int⟩], 1⟩, .write ⟨.heap 0, 0⟩ (.singleton (.int 7 .int)) (.int .int) false]

/-- The second time the contents stay the same, and so does the generation. -/
theorem writtenTwice_counted :
    let s := writtenTwice.foldl Operation.after (new .gcc .strong .abstract)
    let again : Operation Int Double := .write ⟨.heap 0, 0⟩ (.singleton (.int 7 .int)) (.int .int) false
    s.generation = 1 ∧ (again.after s).generation = 1 ∧ ¬s.Differs (again.after s) := by
  intro s again
  have hs : s.Sound := (sound_new .gcc .strong .abstract).foldl writtenTwice
    (by simp [writtenTwice, Operation.Uses])
  have hself : s.Reflexive := by
    intro key cell hcell
    have hmem : (key, cell) ∈ s.cells.toList := Std.TreeMap.mem_toList_iff_getElem?_eq_some.mpr hcell
    cases mem_singleton.mp hmem
    rfl
  have hcounts := (generation_counts_iff hs hself (show ¬(_ = true) by decide) again).mpr id
  exact ⟨rfl, rfl, fun hdiffers => absurd (hcounts.mpr hdiffers) (by decide)⟩

/-- Two requests of a site: a block is new, and then it is a summary. Neither is counted, and
freeing it, which leaves it live, is. -/
theorem siteBlock_miscounted :
    let s : Store Int Double := new .gcc .strong .abstract
    let request : Operation Int Double := .malloc 0 ⟨[⟨4, .int .int⟩], 1⟩
    let summary := request.after (request.after s)
    let freed := (Operation.free ⟨.heap 0, 0⟩).after summary
    s.generation = 0 ∧ summary.generation = 0 ∧ freed.generation = 1 ∧
      s.heap.isLive 0 = false ∧ summary.heap.isLive 0 = true ∧ ¬summary.Differs freed := by
  intro s request summary freed
  have hfreed : freed = { summary with generation := 1 } := rfl
  refine ⟨rfl, rfl, rfl, rfl, rfl, ?_⟩
  rw [hfreed, differs_withHeap]
  simp

end Store

end CoreC
