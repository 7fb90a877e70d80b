import CoreC.Proofs.Memory.Separation

/-! # Records of heap blocks

Objects on the heap are numbered by the heap's records. Under the abstract policy a site owns
a block from its first request on; under the concrete policy no site owns any, so every
request gets a new block.
-/

namespace CoreC

variable {ι φ : Type}

namespace Heap

variable {h : Heap} {id : Nat}

theorem exists_of_isSummary (hsummary : h.isSummary id = true) :
    ∃ block, h.blocks[id]? = some block ∧ block.summary = true := by
  unfold isSummary at hsummary
  cases hblock : h.blocks[id]? with
  | none => simp [hblock] at hsummary
  | some block => exact ⟨block, rfl, by simpa [hblock] using hsummary⟩

/-- A request leaves summaries summaries. -/
theorem isSummary_allocate (site : NodeId) (size : Nat) (kind : BlockKind)
    (hsummary : h.isSummary id = true) : (h.allocate site size kind).2.isSummary id = true := by
  obtain ⟨block, hblock, hmarked⟩ := exists_of_isSummary hsummary
  unfold allocate isSummary
  split
  next owned _ =>
    simp only [Array.getElem?_modify]
    split
    · simp [hblock, reuse]
    · simp [hblock, hmarked]
  next =>
    have hlt := (Array.getElem?_eq_some_iff.mp hblock).1
    simp [Array.getElem?_push, hblock, hmarked, Nat.ne_of_lt hlt]

/-- What can be freed is no literal: a summary stays as it is, and a live block is marked. -/
theorem free_eq_ok {h h' : Heap} (hfree : h.free id = .ok h') :
    ∃ block, h.blocks[id]? = some block ∧ block.kind ≠ .literal ∧
      (block.summary = true ∧ h' = h ∨ block.summary = false ∧ block.live = true ∧
        h' = { h with blocks := h.blocks.modify id ({ · with live := false }) }) := by
  unfold free at hfree
  repeat' split at hfree
  all_goals cases hfree
  next block hblock hkind hsummary => exact ⟨block, hblock, hkind, .inl ⟨hsummary, rfl⟩⟩
  next block hblock hkind hsummary hlive =>
    exact ⟨block, hblock, hkind, .inr ⟨Bool.eq_false_iff.mpr hsummary, hlive, rfl⟩⟩

theorem isSummary_free {h h' : Heap} {freed : Nat} (hfree : h.free freed = .ok h') (id : Nat) :
    h'.isSummary id = h.isSummary id := by
  obtain ⟨block, hblock, -, ⟨-, rfl⟩ | ⟨-, -, rfl⟩⟩ := free_eq_ok hfree
  · rfl
  · simp only [isSummary, Array.getElem?_modify]
    split
    next hsame => simp [← hsame, hblock]
    next => rfl

@[simp] theorem policy_allocate (h : Heap) (site : NodeId) (size : Nat) (kind : BlockKind) :
    (h.allocate site size kind).2.policy = h.policy := by
  unfold allocate
  split <;> rfl

theorem size_le_allocate (h : Heap) (site : NodeId) (size : Nat) (kind : BlockKind) :
    h.blocks.size ≤ (h.allocate site size kind).2.blocks.size := by
  unfold allocate
  split <;> simp

/-- The sites that own a block after a request: those that did, and the one that asked. -/
theorem of_owned?_allocate {site other : NodeId} {size id : Nat} {kind kind' : BlockKind}
    (howned : (h.allocate site size kind).2.owned? other kind' = some id) :
    h.owned? other kind' = some id ∨ (kind' = kind ∧ other = site) := by
  unfold allocate at howned
  split at howned
  · exact .inl howned
  · cases hpolicy : h.policy with
    | concrete => simp [owned?, hpolicy] at howned
    | abstract =>
      simp only [owned?, hpolicy, List.lookup_cons] at howned ⊢
      split at howned
      next hsame =>
        simp only [beq_iff_eq, Prod.mk.injEq] at hsame
        exact .inr hsame
      next => exact .inl howned

theorem free_records {h h' : Heap} (hfree : h.free id = .ok h') :
    h'.policy = h.policy ∧ h'.bySite = h.bySite ∧ h'.blocks.size = h.blocks.size := by
  obtain ⟨block, -, -, ⟨-, rfl⟩ | ⟨-, -, rfl⟩⟩ := free_eq_ok hfree <;> simp

end Heap

namespace Store

/-- What the heap's records say of the store: objects on the heap are numbered blocks, and
under the abstract policy only sites that asked for a block own one. -/
structure Issued (s : Store ι φ) (policy : HeapPolicy) (asked : List NodeId) : Prop where
  policy_eq : s.heap.policy = policy
  numbered : ∀ {id extent}, s.extents[Base.heap id]? = some extent → id < s.heap.blocks.size
  owned : ∀ {site id}, s.heap.owned? site .malloc = some id → site ∈ asked

/-- The records of objects and blocks stay as they are. -/
def SameRecords (s s' : Store ι φ) : Prop := s'.heap = s.heap ∧ s'.extents = s.extents

theorem issued_new (target : Target) (update : UpdatePolicy) (heap : HeapPolicy) :
    (new target update heap : Store ι φ).Issued heap [] where
  policy_eq := rfl
  numbered hextent := by simp [new] at hextent
  owned howned := by cases heap <;> simp [new, Heap.new, Heap.owned?] at howned

namespace Issued

variable {s s' : Store ι φ} {policy : HeapPolicy} {asked : List NodeId}

section

variable (hs : s.Issued policy asked)

include hs

theorem of_same (hsame : s.SameRecords s') : s'.Issued policy asked where
  policy_eq := by rw [hsame.1]; exact hs.policy_eq
  numbered hextent := by rw [hsame.1]; exact hs.numbered (hsame.2 ▸ hextent)
  owned howned := hs.owned (hsame.1 ▸ howned)

/-- Nothing is laid out under the next number. -/
theorem extents_size : s.extents[Base.heap s.heap.blocks.size]? = none := by
  cases hextent : s.extents[Base.heap s.heap.blocks.size]? with
  | none => rfl
  | some extent => exact absurd (hs.numbered hextent) (Nat.lt_irrefl _)

/-- A request for a block, before the block is laid out. -/
theorem allocate_heap (site : NodeId) (size : Nat) (kind : BlockKind) :
    ({ s with heap := (s.heap.allocate site size kind).2 } : Store ι φ).Issued policy
      (if kind = .malloc then site :: asked else asked) where
  policy_eq := by simpa using hs.policy_eq
  numbered hextent := Nat.lt_of_lt_of_le (hs.numbered hextent) (s.heap.size_le_allocate site size kind)
  owned howned := by
    rcases Heap.of_owned?_allocate howned with hold | ⟨rfl, rfl⟩
    · split
      · exact List.mem_cons_of_mem _ (hs.owned hold)
      · exact hs.owned hold
    · simp

theorem markSummary (base : Base) : (s.markSummary base).Issued policy asked where
  policy_eq := hs.policy_eq
  numbered {id extent} hextent := by
    obtain ⟨old, hold, -⟩ := exists_of_extents_markSummary hextent
    exact hs.numbered hold
  owned := hs.owned

theorem allocate {base : Base} (layout : Layout)
    (hbase : ∀ id, base = .heap id → id < s.heap.blocks.size) :
    (leaves (Store.allocate base layout) s).Issued policy asked := by
  rcases leaves_allocate s base layout with heq | heq | ⟨-, -, -, heq⟩ <;> rw [heq]
  · exact hs.markSummary base
  · exact hs
  · refine ⟨hs.policy_eq, fun {id extent} hextent => ?_, hs.owned⟩
    change (s.extents.insert base _)[Base.heap id]? = some extent at hextent
    simp only [Std.TreeMap.getElem?_insert, Std.compare_eq_iff_eq] at hextent
    split at hextent
    next hsame => exact hbase id hsame
    next => exact hs.numbered hextent

theorem malloc (site : NodeId) (layout : Layout) :
    (leaves (Store.malloc site layout) s).Issued policy (site :: asked) := by
  have hasked := hs.allocate_heap site layout.size .malloc
  rw [if_pos rfl] at hasked
  rw [leaves, malloc_eq]
  split_ifs with hfresh
  · refine hasked.allocate layout ?_
    rintro id hid
    cases hid
    exact Heap.lt_of_fresh hfresh
  · exact hasked.markSummary _

theorem free (address : Address) :
    (leaves (Store.free address : StoreM ι φ PUnit) s).Issued policy asked := by
  rcases leaves_free s address with heq | ⟨id, heap, hfree, heq⟩ <;> rw [heq]
  · exact hs
  · obtain ⟨hpolicy, hsites, hsize⟩ := Heap.free_records hfree
    refine ⟨hpolicy.trans hs.policy_eq, fun hextent => ?_, fun {site id} howned => ?_⟩
    · exact hsize ▸ hs.numbered hextent
    · have hold : s.heap.owned? site .malloc = some id := by
        simpa only [Heap.owned?, hpolicy, hsites] using howned
      exact hs.owned hold

/-- No block is owned by a site that did not ask, nor by any site under the concrete policy. -/
theorem unowned {site : NodeId}
    (hsite : policy = .abstract → site ∉ asked) : s.heap.owned? site .malloc = none := by
  cases howned : s.heap.owned? site .malloc with
  | none => rfl
  | some id =>
    refine absurd (hs.owned howned) (hsite ?_)
    cases hpolicy : s.heap.policy with
    | concrete => simp [Heap.owned?, hpolicy] at howned
    | abstract => rw [← hs.policy_eq, hpolicy]

end

end Issued

theorem sameRecords : Evolution (SameRecords (ι := ι) (φ := φ)) where
  refl _ := ⟨rfl, rfl⟩
  trans hfirst hsecond := ⟨hsecond.1.trans hfirst.1, hsecond.2.trans hfirst.2⟩

section Writes

/-- A block that its site does not own yet is laid out anew. -/
theorem malloc_of_unowned {s : Store ι φ} {site : NodeId} (hunowned : s.heap.owned? site .malloc =
    none) (layout : Layout) :
    Store.malloc site layout s = Store.allocate (.heap s.heap.blocks.size) layout
      { s with heap := (s.heap.allocate site layout.size .malloc).2 } := by
  rw [malloc_eq, if_pos (by simp [Heap.allocate, hunowned])]
  simp [Heap.allocate, hunowned]

variable [DecidableEq ι] [BEq φ] [Domain ι φ]

omit [Domain ι φ] in
theorem sameRecords_commit (s : Store ι φ) (updates : List (Nat × ValueSet ι φ)) :
    SameRecords s (s.commit updates) :=
  ⟨commit_heap s updates, commit_extents s updates⟩

theorem recording : AllowsWrites (SameRecords (ι := ι) (φ := φ)) where
  toEvolution := sameRecords
  written _ _ := sameRecords_commit _ _

variable {s : Store ι φ} {policy : HeapPolicy} {asked : List NodeId}

/-- The records after a literal was made are those after its block was recorded and, if it is
new, laid out. -/
theorem sameRecords_literal (s : Store ι φ) (site : NodeId) (text : List UInt8) :
    let request := s.heap.allocate site (text.length + 1) .literal
    let recorded : Store ι φ := { s with heap := request.2 }
    SameRecords (if request.1.2 then leaves (allocate (.heap request.1.1)
      ⟨[⟨s.target.intWidth .char, .int .char⟩], text.length + 1⟩) recorded else recorded)
      (leaves (literal site text) s) := by
  intro request recorded
  have hfill id width (fresh : Bool) :
      SameRecords (if fresh then leaves (allocate (.heap id) ⟨[⟨width, .int .char⟩], text.length + 1⟩) recorded
        else recorded) (leaves (do
          if fresh then
            let _ ← Store.allocate (.heap id) ⟨[⟨width, .int .char⟩], text.length + 1⟩
            writeChars ⟨.heap id, 0⟩ .char width (text ++ [0]) 0
          return ⟨.heap id, 0⟩ : StoreM ι φ Address) recorded) := by
    cases fresh with
    | false => exact sameRecords.refl recorded
    | true =>
      change SameRecords (leaves (Store.allocate _ _) recorded) (leaves (Store.allocate (.heap id) _ >>=
        fun _ => writeChars ⟨.heap id, 0⟩ .char width (text ++ [0]) 0 >>= fun _ => _) recorded)
      rw [leaves_bind, leaves]
      split
      next middle _ =>
        exact (recording.writeChars _ (fun _ _ _ => trivial) _ _ _).bind sameRecords
          (fun _ => .pure sameRecords _) middle
      next => exact sameRecords.refl _
  exact hfill _ _ _

theorem Issued.literal (hs : s.Issued policy asked) (site : NodeId) (text : List UInt8) :
    (leaves (Store.literal site text) s).Issued policy asked := by
  have hasked := hs.allocate_heap site (text.length + 1) .literal
  rw [if_neg (by decide)] at hasked
  refine Issued.of_same ?_ (sameRecords_literal s site text)
  split
  next hfresh =>
    refine hasked.allocate _ ?_
    rintro id ⟨⟩
    exact Heap.lt_of_fresh hfresh
  next => exact hasked

variable {site : NodeId}

/-- A literal is laid out and written when its block is new. -/
theorem literal_eq (s : Store ι φ) (site : NodeId) (text : List UInt8) :
    let request := s.heap.allocate site (text.length + 1) .literal
    literal site text s = (do
      if request.1.2 then
        let _ ← Store.allocate (.heap request.1.1) ⟨[⟨s.target.intWidth .char, .int .char⟩], text.length + 1⟩
        writeChars ⟨.heap request.1.1, 0⟩ .char (s.target.intWidth .char) (text ++ [0]) 0
      return ⟨.heap request.1.1, 0⟩ : StoreM ι φ Address) { s with heap := request.2 } := rfl

theorem literal_of_owned {id : Nat} (howned : s.heap.owned? site .literal = some id)
    (text : List UInt8) : literal site text s =
      .ok ⟨.heap id, 0⟩ { s with heap := (s.heap.allocate site (text.length + 1) .literal).2 } := by
  have hagain : (s.heap.allocate site (text.length + 1) .literal).1 = (id, false) := by
    simp [Heap.allocate, howned]
  rw [literal_eq, hagain]
  rfl

/-- A literal that its node does not own yet is laid out and written. -/
theorem literal_of_unowned (hunowned : s.heap.owned? site .literal = none) (text : List UInt8) :
    Store.literal site text s = (do
      let _ ← Store.allocate (.heap s.heap.blocks.size)
        ⟨[⟨s.target.intWidth .char, .int .char⟩], text.length + 1⟩
      writeChars ⟨.heap s.heap.blocks.size, 0⟩ .char (s.target.intWidth .char) (text ++ [0]) 0
      return ⟨.heap s.heap.blocks.size, 0⟩ : StoreM ι φ Address)
      { s with heap := (s.heap.allocate site (text.length + 1) .literal).2 } := by
  have hfresh : (s.heap.allocate site (text.length + 1) .literal).1 = (s.heap.blocks.size, true) := by
    simp [Heap.allocate, hunowned]
  rw [literal_eq, hfresh]
  rfl

end Writes

end Store

end CoreC
