import CoreC.Proofs.Faults
import CoreC.Proofs.Memory.Arrangement
import CoreC.Proofs.Memory.HeapRecords

/-! # What a heap request provides

A block is laid out once, when it is new. Where every request gets a block of its own, all
bytes that were asked for are there. Where a site owns one block, a later request of the site
is granted without a look at its size: it gets the bytes that the site's first request was laid
out with, be they more or fewer than it asks for.
-/

namespace CoreC

open List Option Heap Layout

variable {ι φ : Type}

namespace Heap

variable {h : Heap}

theorem owned?_allocate {site other : NodeId} {size id : Nat} {kind kind' : BlockKind}
    (howned : h.owned? other kind' = some id) :
    (h.allocate site size kind).2.owned? other kind' = some id := by
  unfold allocate
  split
  · exact howned
  next hunowned =>
    cases hpolicy : h.policy with
    | concrete => simp [owned?, hpolicy] at howned
    | abstract =>
      simp only [owned?, hpolicy, lookup_cons] at howned hunowned ⊢
      split
      next hsame =>
        simp only [beq_iff_eq] at hsame
        simp [hsame, hunowned] at howned
      next => exact howned

theorem owned?_allocate_self (hpolicy : h.policy = .abstract) (site : NodeId) (size : Nat) (kind : BlockKind) :
    (h.allocate site size kind).2.owned? site kind = some (h.allocate site size kind).1.1 := by
  unfold allocate
  split
  next howned => exact howned
  next => simp [owned?, hpolicy]

/-- Every block that a site owns is there. -/
def Numbered (h : Heap) : Prop :=
  ∀ {site kind id}, h.owned? site kind = some id → id < h.blocks.size

theorem Numbered.allocate (hnumbered : h.Numbered) (site : NodeId) (size : Nat) (kind : BlockKind) :
    (h.allocate site size kind).2.Numbered := by
  intro other kind' id howned
  unfold Heap.allocate at howned ⊢
  split at howned
  · simpa using hnumbered howned
  · cases hpolicy : h.policy with
    | concrete => simp [owned?, hpolicy] at howned
    | abstract =>
      simp only [owned?, hpolicy, lookup_cons] at howned
      split at howned
      · simp_all
      · have hlt := hnumbered (by simpa only [owned?, hpolicy] using howned)
        simp only [Array.size_push]
        omega

/-- The block that serves a request may be used. -/
theorem Numbered.liveBlock_allocate (hnumbered : h.Numbered) (site : NodeId) (size : Nat) (kind : BlockKind) :
    ∃ block, (h.allocate site size kind).2.liveBlock (h.allocate site size kind).1.1 = .ok block := by
  unfold Heap.allocate
  split
  next id howned =>
    have hlt := hnumbered howned
    have hblock := Array.getElem?_eq_getElem hlt
    exact ⟨reuse h.blocks[id] size, by simp [liveBlock, Array.getElem?_modify, hblock, reuse]⟩
  next => simp [liveBlock]

end Heap

namespace Store

/-! ## Bytes in bounds -/

/-- The byte at the address can be accessed: it lies in a cell. -/
def Holds (s : Store ι φ) (address : Address) : Prop :=
  ∃ place, s.locate address = .ok place ∧ place.within < place.cell.size

variable {base : Base}

theorem holds_iff {s : Store ι φ} (hordered : s.Ordered) (hfull : Full s.cells s.next)
    (husable : s.Usable base) (offset : Int) :
    s.Holds ⟨base, offset⟩ ↔ 0 ≤ offset ∧ offset < ((s.size? base).getD 0 : Nat) := by
  rw [Holds, locate_of_usable husable, size?]
  cases hextent : s.extents[base]? with
  | none => simp
  | some extent =>
    have hends := hordered.extent hextent
    dsimp only [map_some, getD_some]
    split
    next houtside =>
      simp only [reduceCtorEq, false_and, exists_false, false_iff]
      omega
    next hinside =>
      have hposition : 0 < extent.first + offset.toNat := by omega
      obtain ⟨key, cell, hcell, hle, hlt⟩ := hfull.covers hposition (by omega)
      rw [getEntryLE?_eq_some hcell hle fun other held hheld hother => ?_]
      · simp only [Except.ok.injEq, exists_eq_left']
        omega
      · -- A cell that starts later lies behind the one that holds the byte.
        by_contra hlater
        have hapart := hordered.apart hcell hheld (by omega)
        omega

theorem locate_of_outside {s : Store ι φ} (husable : s.Usable base) {offset : Int}
    (houtside : ¬(0 ≤ offset ∧ offset < ((s.size? base).getD 0 : Nat))) :
    ∃ fault, s.locate ⟨base, offset⟩ = .error (.memory fault) := by
  rw [locate_of_usable husable]
  rw [size?] at houtside
  cases hextent : s.extents[base]? with
  | none => exact ⟨_, rfl⟩
  | some extent =>
    simp only [hextent, map_some, getD_some] at houtside
    exact ⟨_, if_pos (by omega)⟩

theorem size_char (t : Target) : (Scalar.int .char).size t = 1 := by cases t <;> rfl

section Read

variable [DecidableEq ι] [BEq φ] [Domain ι φ] {s : Store ι φ} {address : Address}

/-- Reading a byte that is there is a memory fault only over a pointer that is stored in the
cell and has no number, unless the domain makes one of the bytes. -/
theorem Holds.of_read_error (hholds : s.Holds address) (hordered : s.Ordered) {fault : MemoryFault}
    (hread : s.read address (.int .char) = .error (.memory fault)) :
    (∃ pointer, fault = .unallocatedPointer pointer) ∨
      ∃ bytes, s.decode (.int .char) bytes = .error (.memory fault) := by
  obtain ⟨place, hlocate, hinside⟩ := hholds
  obtain ⟨-, extent, -, -, -, hentry, -⟩ := locate_eq_ok hlocate
  have hcell := getElem?_of_getEntryLE? hentry
  have hkey := hordered.key_pos hcell
  -- What may go wrong on the way: a fault of another kind, or one of the two.
  let B (fault : Fault) : Prop := ∀ memory, fault = .memory memory →
    (∃ pointer, memory = .unallocatedPointer pointer) ∨
      ∃ bytes, s.decode (.int .char) bytes = .error (.memory memory)
  have hpieces : Raises B (s.cellBytes place.cell place.within 1) := by
    refine .bind (.mapM _ fun v fault hv => ?_) fun _ => .ok _
    unfold valueBytes at hv
    split at hv
    · cases hv
    · unfold numberOf at hv
      repeat' split at hv
      all_goals cases hv
      rintro _ ⟨⟩
      exact .inl ⟨_, rfl⟩
    · cases hv
      rintro _ ⟨⟩
  have hraises : Raises B (s.read address (.int .char)) := by
    unfold read
    rw [hlocate]
    change Raises B (ite _ _ (s.collectBytes address (s.accessFuel ((Scalar.int .char).size s.target)) _ _
      ((Scalar.int .char).size s.target) _ >>= _))
    rw [size_char, accessFuel, Nat.add_assoc, Nat.add_comm]
    refine .ite (.ok _) (.bind ?_ fun patterns => ?_)
    · have htaken : min (place.cell.size - place.within) 1 = 1 := by omega
      simp only [collectBytes, if_neg (show place.key ≠ noCell by rw [noCell]; omega), cell, hcell]
      change Raises B (s.cellBytes place.cell place.within (min (place.cell.size - place.within) 1) >>= _)
      rw [htaken]
      refine .bind hpieces fun pieces => .ite (.error ?_) ?_
      · rintro _ ⟨⟩
      · unfold collectBytes
        exact .ok _
    · have hdecode bytes : Raises B (s.decode (.int .char) bytes) :=
        fun fault hfault memory hmemory => .inr ⟨bytes, hmemory ▸ hfault⟩
      exact .foldlM _ _ fun _ bytes => (hdecode bytes).map _
  exact hraises _ hread fault rfl

end Read

/-! ## Records of a history -/

section Records

variable {s : Store ι φ} {policy : HeapPolicy}

theorem size?_allocate (s : Store ι φ) {base other : Base} (hother : base ≠ other) (layout : Layout) :
    (leaves (allocate base layout) s).size? other = s.size? other := by
  rcases leaves_allocate s base layout with heq | heq | ⟨-, -, -, heq⟩ <;> rw [heq]
  · exact size?_markSummary s base other
  · rw [size?_addObject, if_neg hother]

theorem heap_allocate (s : Store ι φ) (base : Base) (layout : Layout) :
    (leaves (allocate base layout) s).heap = s.heap := by
  rcases leaves_allocate s base layout with heq | heq | ⟨-, -, -, heq⟩ <;> rw [heq] <;> rfl

/-- A new object has the bytes of its layout, and one that has none is not laid out. -/
theorem size?_allocate_new (hnew : s.extents[base]? = none) (layout : Layout) :
    ((leaves (allocate base layout) s).size? base).getD 0 = layout.size := by
  have hallocated : ¬s.isAllocated base = true := by simpa [isAllocated] using hnew
  unfold leaves allocate
  rw [if_neg hallocated]
  split
  next hrun =>
    split at hrun <;> cases hrun
    simp [size?, appendCells_size, total_flatten]
  next hrun =>
    split at hrun <;> cases hrun
    next hempty =>
      rcases hempty with hunits | hcount
      · simp [size?, hnew, size, stride, List.isEmpty_iff.mp hunits, StorageUnit.total]
      · simp [size?, hnew, size, hcount]

/-- Sites keep their blocks, and blocks keep the objects that they were laid out with. -/
structure Settles (s s' : Store ι φ) : Prop where
  count : s.heap.blocks.size ≤ s'.heap.blocks.size
  owned : ∀ {site kind id}, s.heap.owned? site kind = some id → s'.heap.owned? site kind = some id
  numbered : s.heap.Numbered → s'.heap.Numbered
  size : ∀ {id}, id < s.heap.blocks.size → s'.size? (.heap id) = s.size? (.heap id)

theorem Settles.trans {middle s' : Store ι φ} (hfirst : s.Settles middle) (hsecond : middle.Settles s') :
    s.Settles s' where
  count := Nat.le_trans hfirst.count hsecond.count
  owned := hsecond.owned ∘ hfirst.owned
  numbered := hsecond.numbered ∘ hfirst.numbered
  size hid := (hsecond.size (Nat.lt_of_lt_of_le hid hfirst.count)).trans (hfirst.size hid)

variable {s' : Store ι φ}

theorem settles_of_eq (hheap : s'.heap = s.heap)
    (hsize : ∀ id, s'.size? (.heap id) = s.size? (.heap id)) : s.Settles s' :=
  ⟨Nat.le_of_eq (by rw [hheap]), fun howned => hheap ▸ howned, fun h => hheap ▸ h, fun _ => hsize _⟩

theorem SameRecords.settles (hsame : s.SameRecords s') : s.Settles s' :=
  settles_of_eq hsame.1 fun _ => by rw [size?, size?, hsame.2]

/-- A request for a block leaves the blocks alone that there were. -/
theorem settles_request (s : Store ι φ) (site : NodeId) (size : Nat) (kind : BlockKind) (layout : Layout) :
    s.Settles (if (s.heap.allocate site size kind).1.2 then
      leaves (allocate (.heap (s.heap.allocate site size kind).1.1) layout)
        { s with heap := (s.heap.allocate site size kind).2 }
      else { s with heap := (s.heap.allocate site size kind).2 }) := by
  have hcount := s.heap.size_le_allocate site size kind
  split
  next hfresh =>
    refine ⟨by rw [heap_allocate]; exact hcount, fun howned => ?_, fun hnumbered => ?_, fun {id} hid => ?_⟩
    · rw [heap_allocate]
      exact owned?_allocate howned
    · rw [heap_allocate]
      exact hnumbered.allocate site size kind
    · refine size?_allocate _ (fun hsame => ?_) layout
      cases hsame
      exact absurd (allocate_fresh hfresh).1 (Nat.ne_of_lt hid)
  next => exact ⟨hcount, owned?_allocate, fun hnumbered => hnumbered.allocate site size kind, fun _ => rfl⟩

theorem heap_malloc (s : Store ι φ) (site : NodeId) (layout : Layout) :
    (leaves (malloc site layout) s).heap = (s.heap.allocate site layout.size .malloc).2 := by
  rw [leaves, malloc_eq]
  split_ifs
  · exact heap_allocate _ _ layout
  · rfl

/-- The records agree with the requests that were made: only sites that asked own a block, and
under the abstract policy it has the bytes of the site's first request. -/
structure Provides (s : Store ι φ) (policy : HeapPolicy) (requests : List (NodeId × Layout)) : Prop where
  issued : s.Issued policy (requests.map (·.1))
  numbered : s.heap.Numbered
  laidOut : policy = .abstract → ∀ {site layout}, requests.lookup site = some layout →
    ∃ id, s.heap.owned? site .malloc = some id ∧ (s.size? (.heap id)).getD 0 = layout.size

theorem provides_new (target : Target) (update : UpdatePolicy) (heap : HeapPolicy) :
    (new target update heap : Store ι φ).Provides heap [] where
  issued := issued_new target update heap
  numbered howned := by cases heap <;> simp [new, Heap.new, Heap.owned?] at howned
  laidOut _ _ _ hlookup := by simp at hlookup

/-- A block that is new is laid out with what is asked for. -/
theorem Issued.size?_malloc {asked : List NodeId} (hs : s.Issued policy asked) {site : NodeId}
    (hsite : policy = .abstract → site ∉ asked) (layout : Layout) :
    ((leaves (Store.malloc site layout) s).size?
      (.heap (s.heap.allocate site layout.size .malloc).1.1)).getD 0 = layout.size := by
  have hunowned := hs.unowned hsite
  have hnew := hs.extents_size
  have hid : (s.heap.allocate site layout.size .malloc).1.1 = s.heap.blocks.size := by
    simp [Heap.allocate, hunowned]
  rw [leaves, malloc_of_unowned hunowned, hid]
  exact size?_allocate_new (s := { s with heap := (s.heap.allocate site layout.size .malloc).2 }) hnew layout

end Records

section History

variable [DecidableEq ι] [BEq φ] [Domain ι φ] {s : Store ι φ} {policy : HeapPolicy}

/-- Objects on the heap are asked for as blocks only. -/
def Operation.Regular : Operation ι φ → Prop
  | .allocate (.heap _) _ => False
  | _ => True

/-- The site that asks for a block, and the layout that it asks for. -/
def Operation.request? : Operation ι φ → Option (NodeId × Layout)
  | .malloc site layout => some (site, layout)
  | _ => none

variable {operation : Operation ι φ}

theorem Operation.settles (hregular : operation.Regular) (s : Store ι φ) :
    s.Settles (operation.after s) := by
  cases operation with
  | allocate base layout =>
    refine settles_of_eq (heap_allocate s base layout) fun id => size?_allocate s ?_ layout
    rintro rfl
    exact hregular
  | malloc site layout =>
    have hrequest := settles_request s site layout.size .malloc layout
    change s.Settles (leaves (Store.malloc site layout) s)
    rw [leaves, malloc_eq]
    split at hrequest
    next hfresh =>
      rw [if_pos hfresh]
      exact hrequest
    next hfresh =>
      rw [if_neg hfresh]
      exact hrequest.trans (settles_of_eq rfl fun _ => size?_markSummary _ _ _)
  | literal site text =>
    exact (settles_request s site _ .literal _).trans (sameRecords_literal s site text).settles
  | free address =>
    change s.Settles (leaves (Store.free address) s)
    rcases leaves_free s address with heq | ⟨id, heap, hfree, heq⟩ <;> rw [heq]
    · exact settles_of_eq rfl fun _ => rfl
    · obtain ⟨hpolicy, hsites, hsize⟩ := free_records hfree
      have howned site kind : heap.owned? site kind = s.heap.owned? site kind := by
        rw [Heap.owned?, Heap.owned?, hpolicy, hsites]
      refine ⟨Nat.le_of_eq hsize.symm, fun h => (howned _ _).trans h, fun hnumbered _ _ _ h => ?_, fun _ => rfl⟩
      exact hsize ▸ hnumbered ((howned _ _).symm.trans h)
  | write address values scalar forceWeak => exact (recording.write_at address trivial).settles
  | zeroFill base => exact (recording.zeroFill base (fun _ _ => sameRecords_commit _ _) s).settles
  | markSummary base => exact settles_of_eq rfl fun _ => size?_markSummary s base _

theorem Operation.numbered_after (operation : Operation ι φ) (hnumbered : s.heap.Numbered) :
    (operation.after s).heap.Numbered := by
  by_cases hregular : operation.Regular
  · exact (operation.settles hregular s).numbered hnumbered
  · cases operation with
    | allocate base layout =>
      rw [Operation.after, heap_allocate]
      exact hnumbered
    | _ => exact absurd trivial hregular

theorem numbered_foldl (hnumbered : s.heap.Numbered) (operations : List (Operation ι φ)) :
    (operations.foldl Operation.after s).heap.Numbered := by
  induction operations generalizing s with
  | nil => exact hnumbered
  | cons operation rest ih => exact ih (operation.numbered_after hnumbered)

variable {requests : List (NodeId × Layout)}

theorem Operation.issued (hs : s.Issued policy (requests.map (·.1))) (hregular : operation.Regular) :
    (operation.after s).Issued policy ((requests ++ operation.request?.toList).map (·.1)) := by
  have hsame (hrequest : operation.request? = none)
      (h : (operation.after s).Issued policy (requests.map (·.1))) :
      (operation.after s).Issued policy ((requests ++ operation.request?.toList).map (·.1)) := by
    simpa [hrequest] using h
  cases operation with
  | malloc site layout =>
    have hissued := hs.malloc site layout
    refine ⟨hissued.policy_eq, hissued.numbered, fun {other id} howned => ?_⟩
    have hasked := hissued.owned howned
    simp only [Operation.request?, toList_some, map_append, mem_append]
    simp only [mem_cons] at hasked
    exact hasked.symm.imp_right (by simp [·])
  | allocate base layout =>
    refine hsame rfl (hs.allocate layout ?_)
    rintro id rfl
    exact hregular.elim
  | literal site text => exact hsame rfl (hs.literal site text)
  | free address => exact hsame rfl (hs.free address)
  | write address values scalar forceWeak => exact hsame rfl (hs.of_same (recording.write_at address trivial))
  | zeroFill base => exact hsame rfl (hs.of_same (recording.zeroFill base (fun _ _ => sameRecords_commit _ _) s))
  | markSummary base => exact hsame rfl (hs.markSummary base)

theorem Provides.after (hs : s.Provides policy requests) (hregular : operation.Regular) :
    (operation.after s).Provides policy (requests ++ operation.request?.toList) := by
  have hsettles := operation.settles hregular s
  refine ⟨Operation.issued hs.issued hregular, hsettles.numbered hs.numbered,
    fun hpolicy site layout hlookup => ?_⟩
  rw [lookup_append] at hlookup
  cases hearlier : requests.lookup site with
  | some earlier =>
    obtain ⟨id, howned, hsize⟩ := hs.laidOut hpolicy hearlier
    rw [hearlier] at hlookup
    cases hlookup
    exact ⟨id, hsettles.owned howned, by rw [hsettles.size (hs.numbered howned), hsize]⟩
  | none =>
    rw [hearlier] at hlookup
    cases operation with
    | malloc asking asked =>
      obtain ⟨rfl, rfl⟩ : asking = site ∧ asked = layout := by
        simp only [Operation.request?, toList_some, lookup_cons, none_or] at hlookup
        split at hlookup
        next hsame => exact ⟨(beq_iff_eq.mp hsame).symm, some.inj hlookup⟩
        next => simp at hlookup
      have hasked : asking ∉ requests.map (·.1) := by
        rintro hmem
        obtain ⟨request, hrequest, rfl⟩ := mem_map.mp hmem
        exact absurd (lookup_eq_none_iff.mp hearlier request hrequest) (by simp)
      refine ⟨_, ?_, hs.issued.size?_malloc (fun _ => hasked) asked⟩
      rw [Operation.after, heap_malloc]
      exact owned?_allocate_self (hs.issued.policy_eq.trans hpolicy) _ _ _
    | _ => simp [Operation.request?] at hlookup

theorem Provides.foldl (hs : s.Provides policy requests)
    {operations : List (Operation ι φ)} (hregular : ∀ operation ∈ operations, operation.Regular) :
    (operations.foldl Operation.after s).Provides policy
      (requests ++ operations.filterMap Operation.request?) := by
  induction operations generalizing s requests with
  | nil => simpa using hs
  | cons operation rest ih =>
    have hrest := ih (hs.after (hregular _ mem_cons_self)) fun op hop =>
      hregular op (mem_cons_of_mem _ hop)
    cases hrequest : operation.request? <;> simpa [hrequest, filterMap_cons] using hrest

/-- What a request of the site is served with, after the requests there were. -/
def served (policy : HeapPolicy) (earlier : List (NodeId × Layout)) (site : NodeId) (layout : Layout) : Layout :=
  match policy with
  | .concrete => layout
  | .abstract => (earlier.lookup site).getD layout

theorem Provides.served (hs : s.Provides policy requests) (site : NodeId) (layout : Layout) :
    ((leaves (malloc site layout) s).size? (.heap (s.heap.allocate site layout.size .malloc).1.1)).getD 0 =
      (Store.served policy requests site layout).size := by
  cases policy with
  | concrete => exact hs.issued.size?_malloc nofun layout
  | abstract =>
    -- With the request itself the site has asked, so its block has the bytes of its first request.
    have hafter : (Operation.after s (.malloc site layout)).Provides .abstract (requests ++ [(site, layout)]) :=
      hs.after trivial
    have hlookup : (requests ++ [(site, layout)]).lookup site = some ((requests.lookup site).getD layout) := by
      rw [lookup_append]
      cases requests.lookup site <;> simp
    obtain ⟨id, howned, hsize⟩ := hafter.laidOut rfl hlookup
    rw [Operation.after, heap_malloc, owned?_allocate_self hs.issued.policy_eq] at howned
    cases howned
    exact hsize

/-- After every history of operations, the bytes of the block that a granted request gets can be
read, and no others. They are all that it asks for exactly if they are no fewer. If nothing else
was laid out on the heap, the block has the bytes that the request is served with: all that it
asks for where it gets a block of its own, and elsewhere what the site's first request asked for. -/
theorem holds_iff_served (target : Target) (update : UpdatePolicy) (policy : HeapPolicy)
    (operations : List (Operation ι φ)) {site : NodeId} {layout : Layout} {address : Address} {s' : Store ι φ}
    (hrun : malloc site layout (operations.foldl Operation.after (new target update policy)) = .ok address s') :
    (∀ offset : Int, s'.Holds (address.shift offset) ↔ 0 ≤ offset ∧ offset < ((s'.size? address.base).getD 0 : Nat)) ∧
    (∀ offset : Int, s'.Holds (address.shift offset) → ∀ fault,
      s'.read (address.shift offset) (.int .char) = .error (.memory fault) →
        (∃ pointer, fault = .unallocatedPointer pointer) ∨
          ∃ bytes, s'.decode (.int .char) bytes = .error (.memory fault)) ∧
    (∀ offset : Int, ¬s'.Holds (address.shift offset) →
      ∃ fault, s'.read (address.shift offset) (.int .char) = .error (.memory fault)) ∧
    ((∀ offset : Nat, offset < layout.size → s'.Holds (address.shift offset)) ↔
      layout.size ≤ (s'.size? address.base).getD 0) ∧
    ((∀ operation ∈ operations, operation.Regular) → (s'.size? address.base).getD 0 =
      (served policy (operations.filterMap Operation.request?) site layout).size) := by
  have hreach : s'.Reachable := by
    rw [← leaves_of_ok hrun]
    exact ((Reachable.new target update policy).foldl operations).after (.malloc site layout)
  have hnumbered : (operations.foldl Operation.after (new target update policy)).heap.Numbered :=
    numbered_foldl (provides_new target update policy).numbered operations
  have hlive := Numbered.liveBlock_allocate hnumbered site layout.size .malloc
  rw [← heap_malloc, leaves_of_ok hrun] at hlive
  have hserved (hregular : ∀ operation ∈ operations, operation.Regular) :=
    ((provides_new target update policy).foldl hregular).served site layout
  rw [nil_append, leaves_of_ok hrun] at hserved
  -- The address that is granted is the first of the block.
  rw [malloc_eq, allocate] at hrun
  obtain rfl : address = _ := by split_ifs at hrun <;> cases hrun <;> rfl
  generalize (Heap.allocate _ site layout.size .malloc).1.1 = id at hserved hlive ⊢
  have husable : s'.Usable (.heap id) := hlive
  have hshift (offset : Int) : Address.shift ⟨.heap id, 0⟩ offset = ⟨.heap id, offset⟩ := by simp [Address.shift]
  have hholds (offset : Int) := holds_iff hreach.ordered hreach.full husable offset
  simp only [hshift]
  refine ⟨hholds, fun offset hinside fault => hinside.of_read_error hreach.ordered,
    fun offset houtside => ?_, ?_, hserved⟩
  · rw [hholds] at houtside
    obtain ⟨fault, hlocate⟩ := locate_of_outside husable houtside
    refine ⟨fault, ?_⟩
    unfold read
    rw [hlocate]
    rfl
  · simp only [hholds]
    refine ⟨fun hall => ?_, fun hle offset hlt => by omega⟩
    by_contra hmore
    have := hall ((s'.size? (.heap id)).getD 0) (by omega)
    omega

end History

/-- An array of `int`s. -/
def ints (count : Nat) : Layout := ⟨[⟨4, .int .int⟩], count⟩

/-- A site frees its array of three and asks for two: all twelve bytes are there again. -/
theorem ints_served :
    ∃ s', malloc 0 (ints 2) ([Operation.malloc 0 (ints 3), .free ⟨.heap 0, 0⟩].foldl Operation.after
        (new .packed .strong .abstract : Store Int Double)) = .ok ⟨.heap 0, 0⟩ s' ∧
      (∀ offset : Int, s'.Holds (Address.shift ⟨.heap 0, 0⟩ offset) ↔ 0 ≤ offset ∧ offset < 12) ∧
      ∀ offset : Nat, offset < 8 → s'.Holds (Address.shift ⟨.heap 0, 0⟩ offset) := by
  refine ⟨_, rfl, ?_⟩
  obtain ⟨hholds, -, -, hall, hserved⟩ := holds_iff_served (ι := Int) (φ := Double) .packed .strong .abstract
    [.malloc 0 (ints 3), .free ⟨.heap 0, 0⟩] (show malloc 0 (ints 2) _ = .ok ⟨.heap 0, 0⟩ _ from rfl)
  rw [hserved (by simp [Operation.Regular])] at hall
  simp only [hserved (by simp [Operation.Regular])] at hholds
  exact ⟨hholds, hall.mpr (by decide)⟩

/-- A site asks for one `int` and then for two: the request is granted, but the bytes of the
second `int` are out of bounds. -/
theorem ints_short : ∃ s', malloc 0 (ints 2) ([Operation.malloc 0 (ints 1)].foldl Operation.after
        (new .packed .strong .abstract : Store Int Double)) = .ok ⟨.heap 0, 0⟩ s' ∧
      4 < (ints 2).size ∧ s'.read ⟨.heap 0, 4⟩ (.int .char) = .error (.memory (.outOfBounds ⟨.heap 0, 4⟩)) :=
  ⟨_, rfl, by decide, rfl⟩

end Store

end CoreC
