import CoreC.Domain.Exact
import CoreC.Kont.Table
import CoreC.Proofs.Memory.HeapRecords

/-! # Lifetimes of heap blocks

Where every request gets a block of its own, a block that was freed never comes back: its
record stays and says so, whatever is asked of memory later. Freeing a block touches no other
record, so it is not noticed through any other object, and the records of string literals do
not let them be freed at all.
-/

namespace CoreC

open Store Heap

/-- Whether a computation succeeds, or the fault with which it fails. -/
def verdict {σ α : Type} (act : EStateM Fault σ α) (s : σ) : Except Fault Unit :=
  match act s with
  | .ok .. => .ok ()
  | .error fault _ => .error fault

theorem exists_of_verdict_ok {σ α : Type} {act : EStateM Fault σ α} {s : σ} (hverdict : verdict act s = .ok ()) :
    ∃ a s', act s = .ok a s' := by
  unfold verdict at hverdict
  split at hverdict
  next a s' hrun => exact ⟨a, s', hrun⟩
  next => cases hverdict

namespace Heap

/-- The blocks of the second heap continue those of the first: new ones may have come, none of
them a summary, and old ones may have been freed, but none of them brought back. -/
structure Ages (h h' : Heap) : Prop where
  policy : h'.policy = .concrete
  old : ∀ {id : Nat} {block : HeapBlock}, h.blocks[id]? = some block →
    ∃ live, h'.blocks[id]? = some { block with live } ∧
      (block.live = false ∨ block.kind = .literal → live = block.live)
  single : (∀ block ∈ h.blocks, block.summary = false) → ∀ block ∈ h'.blocks, block.summary = false

variable {h h' middle : Heap}

theorem Ages.trans (hfirst : h.Ages middle) (hsecond : middle.Ages h') : h.Ages h' where
  policy := hsecond.policy
  old {id block} hblock := by
    obtain ⟨live, hmiddle, hkept⟩ := hfirst.old hblock
    obtain ⟨live', hlast, hkept'⟩ := hsecond.old hmiddle
    refine ⟨live', hlast, fun hlasting => ?_⟩
    have hlive := hkept hlasting
    exact (hkept' (hlasting.imp_left hlive.trans)).trans hlive
  single hsingle := hsecond.single (hfirst.single hsingle)

variable {id : Nat}

section

variable (hpolicy : h.policy = .concrete)

include hpolicy

theorem Ages.refl : h.Ages h where
  policy := hpolicy
  old {_ block} hblock := ⟨block.live, hblock, fun _ => rfl⟩
  single hsingle := hsingle

/-- A request gets a block of its own, and the others stay as they are. -/
theorem ages_allocate (site : NodeId) (size : Nat) (kind : BlockKind) :
    h.Ages (h.allocate site size kind).2 := by
  simp only [allocate, owned?, hpolicy]
  refine ⟨rfl, fun {id block} hblock => ⟨block.live, ?_, fun _ => rfl⟩, fun hsingle block hblock => ?_⟩
  · have hid := (Array.getElem?_eq_some_iff.mp hblock).1
    rw [Array.getElem?_push, if_neg (Nat.ne_of_lt hid), hblock]
  · rcases Array.mem_push.mp hblock with hold | rfl
    · exact hsingle block hold
    · rfl

theorem ages_free (hfree : h.free id = .ok h') : h.Ages h' := by
  obtain ⟨freed, hfreed, hkind, ⟨-, rfl⟩ | ⟨-, hlive, rfl⟩⟩ := free_eq_ok hfree
  · exact .refl hpolicy
  · refine ⟨hpolicy, fun {other block} hblock => ?_, fun hsingle block hblock => ?_⟩
    · simp only [Array.getElem?_modify]
      split
      next hsame =>
        subst hsame
        rw [hfreed] at hblock
        cases hblock
        refine ⟨false, by rw [hfreed]; rfl, fun hlasting => ?_⟩
        rcases hlasting with hgone | hliteral
        · exact hgone.symm
        · exact absurd hliteral hkind
      next => exact ⟨block.live, hblock, fun _ => rfl⟩
    · obtain ⟨other, hother⟩ := Array.getElem?_of_mem hblock
      simp only [Array.getElem?_modify] at hother
      split at hother
      · obtain ⟨before, hbefore, rfl⟩ := Option.map_eq_some_iff.mp hother
        exact hsingle before (Array.mem_of_getElem? hbefore)
      · exact hsingle block (Array.mem_of_getElem? hother)

end

/-- The block was freed. -/
def Freed (h : Heap) (id : Nat) : Prop :=
  ∃ block, h.blocks[id]? = some block ∧ block.live = false ∧ block.summary = false

/-- The block holds a string literal. -/
def HoldsLiteral (h : Heap) (id : Nat) : Prop := ∃ block, h.blocks[id]? = some block ∧ block.kind = .literal

theorem Freed.ages (hfreed : h.Freed id) (hages : h.Ages h') : h'.Freed id := by
  obtain ⟨block, hblock, hlive, hsummary⟩ := hfreed
  obtain ⟨live, hblock', hkept⟩ := hages.old hblock
  exact ⟨_, hblock', (hkept (.inl hlive)).trans hlive, hsummary⟩

theorem HoldsLiteral.ages (hliteral : h.HoldsLiteral id) (hages : h.Ages h') : h'.HoldsLiteral id := by
  obtain ⟨block, hblock, hkind⟩ := hliteral
  obtain ⟨live, hblock', -⟩ := hages.old hblock
  exact ⟨_, hblock', hkind⟩

/-- As no block is a summary, freeing one that succeeds marks it as freed. -/
theorem freed_of_free (hsingle : ∀ block ∈ h.blocks, block.summary = false)
    (hfree : h.free id = .ok h') : h'.Freed id := by
  obtain ⟨block, hblock, -, ⟨hsummary, -⟩ | ⟨hsummary, -, rfl⟩⟩ := free_eq_ok hfree
  · cases hsummary.symm.trans (hsingle block (Array.mem_of_getElem? hblock))
  · exact ⟨{ block with live := false }, by simp [Array.getElem?_modify, hblock], rfl, hsummary⟩

theorem free_of_freed (hfreed : h.Freed id) : ∃ fault, h.free id = .error (.memory fault) := by
  obtain ⟨block, hblock, hlive, hsummary⟩ := hfreed
  simp only [free, hblock, hsummary, hlive, Bool.false_eq_true, ↓reduceIte]
  split
  · exact ⟨_, rfl⟩
  · exact ⟨_, rfl⟩

theorem free_of_holdsLiteral (hliteral : h.HoldsLiteral id) :
    h.free id = .error (.memory .freeLiteral) := by
  obtain ⟨block, hblock, hkind⟩ := hliteral
  simp [free, hblock, hkind]

/-- Freeing a block leaves the records of the others alone. -/
theorem getElem?_free {freed id : Nat} (hfree : h.free freed = .ok h') (hother : id ≠ freed) :
    h'.blocks[id]? = h.blocks[id]? := by
  obtain ⟨block, -, -, ⟨-, rfl⟩ | ⟨-, -, rfl⟩⟩ := free_eq_ok hfree
  · rfl
  · rw [Array.getElem?_modify, if_neg hother.symm]

/-- Whether a block can be freed depends on its own record. -/
theorem free_congr (hblock : h'.blocks[id]? = h.blocks[id]?) :
    (h'.free id).map (fun _ => ()) = (h.free id).map fun _ => () := by
  simp only [free, hblock]
  cases h.blocks[id]? with
  | none => rfl
  | some block =>
    dsimp only
    repeat' split
    all_goals rfl

end Heap

namespace Store

variable {ι φ : Type}

/-- Under the concrete policy the blocks of the second store continue those of the first. -/
def Ages (s s' : Store ι φ) : Prop := s.heap.policy = .concrete → s.heap.Ages s'.heap

theorem ages : Evolution (Ages (ι := ι) (φ := φ)) where
  refl _ hpolicy := .refl hpolicy
  trans hfirst hsecond hpolicy := (hfirst hpolicy).trans (hsecond (hfirst hpolicy).policy)

theorem ages_of_heap_eq {s s' : Store ι φ} (hheap : s'.heap = s.heap) : Ages s s' := by
  intro hpolicy
  rw [hheap]
  exact .refl hpolicy

section Requests

variable [DecidableEq ι] [BEq φ] [Domain ι φ]

theorem aging : Allows (fun _ => True) (Ages (ι := ι) (φ := φ)) where
  toEvolution := ages
  recorded _ _ _ _ hpolicy := Heap.ages_allocate hpolicy _ _ _
  freed hfree hpolicy := ages_free hpolicy hfree
  summary _ _ := ages_of_heap_eq rfl
  object _ _ _ _ := ages_of_heap_eq rfl
  written _ _ := ages_of_heap_eq (commit_heap _ _)

/-- Whether it could be filled or not, the block of a literal is known as one. -/
theorem holdsLiteral_literal {s : Store ι φ} (hpolicy : s.heap.policy = .concrete) (site : NodeId)
    (text : List UInt8) :
    (leaves (literal site text) s).heap.HoldsLiteral s.heap.blocks.size := by
  have hrecorded : (s.heap.allocate site (text.length + 1) .literal).2.HoldsLiteral s.heap.blocks.size := by
    simp only [Heap.allocate, Heap.owned?, hpolicy]
    exact ⟨_, Array.getElem?_push_size, rfl⟩
  have hages := Heap.ages_allocate hpolicy site (text.length + 1) .literal
  rw [leaves_congr (literal_of_unowned (by simp [Heap.owned?, hpolicy]) text)]
  refine hrecorded.ages ((?_ : Keeps Ages _) { s with heap := _ } hages.policy)
  refine .bind ages (fun _ => aging.allocate trivial fun _ _ => trivial) fun _ => ?_
  exact .bind ages (aging.writeChars _ (fun _ _ _ => trivial) _ _ _) fun _ => .pure ages _

theorem literal_eq_ok {s s' : Store ι φ} (hpolicy : s.heap.policy = .concrete) {site : NodeId}
    {text : List UInt8} {address : Address} (hliteral : literal site text s = .ok address s') :
    address = ⟨.heap s.heap.blocks.size, 0⟩ := by
  rw [literal_of_unowned (by simp [Heap.owned?, hpolicy])] at hliteral
  obtain ⟨_, _, -, hfilled⟩ := bind_eq_ok.mp hliteral
  obtain ⟨_, _, -, hreturn⟩ := bind_eq_ok.mp hfilled
  cases hreturn
  rfl

end Requests

/-! ## Accesses -/

/-- The store with other records of blocks. -/
def withBlocks (s : Store ι φ) (heap : Heap) (generation : Nat) : Store ι φ := { s with heap, generation }

section Walks

variable (s : Store ι φ) (heap : Heap) (generation : Nat) (address : Address)

theorem walk_withBlocks (fuel key : Nat) (position : Int) :
    (s.withBlocks heap generation).walk address fuel key position = s.walk address fuel key position := by
  induction fuel generalizing key position with
  | zero => rfl
  | succ fuel ih =>
    simp only [walk, ih]
    rfl

variable [Domain ι φ]

theorem collectBytes_withBlocks (fuel key start remaining : Nat) (patterns : List BytePattern) :
    (s.withBlocks heap generation).collectBytes address fuel key start remaining patterns =
      s.collectBytes address fuel key start remaining patterns := by
  induction fuel generalizing key start remaining patterns with
  | zero => cases remaining <;> rfl
  | succ fuel ih =>
    cases remaining with
    | zero => rfl
    | succ remaining =>
      simp only [collectBytes, ih]
      rfl

variable [DecidableEq ι] [BEq φ]

theorem repack_withBlocks (weak : Bool) (patches : List BytePattern) (length fuel key start consumed : Nat) :
    (s.withBlocks heap generation).repack address weak patches length fuel key start consumed =
      s.repack address weak patches length fuel key start consumed := by
  induction fuel generalizing key start consumed with
  | zero => rfl
  | succ fuel ih =>
    simp only [repack, ih]
    rfl

end Walks

section Access

variable {s : Store ι φ} {heap : Heap} {address : Address}

variable (hblock : ∀ id, address.base = .heap id → heap.blocks[id]? = s.heap.blocks[id]?) (generation : Nat)

include hblock

/-- An access to an object asks the heap only for the block of that object. -/
theorem locate_withBlocks : (s.withBlocks heap generation).locate address = s.locate address := by
  unfold locate
  cases hbase : address.base with
  | null | frame => rfl
  | heap id =>
    simp only [withBlocks, liveBlock, hblock id hbase]

theorem isSummary_withBlocks : (s.withBlocks heap generation).isSummary address.base = s.isSummary address.base := by
  unfold isSummary
  cases hbase : address.base with
  | null | frame => rfl
  | heap id => simp only [withBlocks, Heap.isSummary, hblock id hbase]

theorem movePointer_withBlocks (delta : Int) :
    (s.withBlocks heap generation).movePointer address delta = s.movePointer address delta := by
  simp only [movePointer, walk_withBlocks]
  rw [locate_withBlocks]
  · rfl
  · intro id hbase
    refine hblock id ?_
    split at hbase <;> exact hbase

theorem verdict_free_withBlocks :
    verdict (free address) (s.withBlocks heap generation) = verdict (free address) s := by
  unfold verdict free
  cases hbase : address.base with
  | null =>
    dsimp only
    split_ifs <;> rfl
  | frame => rfl
  | heap id =>
    have hallocated : (s.withBlocks heap generation).isAllocated (.heap id) = s.isAllocated (.heap id) := rfl
    have hfree := free_congr (hblock id hbase)
    simp only [hallocated]
    split_ifs
    · rfl
    · rfl
    · cases h : heap.free id <;> cases h' : s.heap.free id <;> simp_all [withBlocks, Except.map]

variable [DecidableEq ι] [BEq φ] [Domain ι φ]

theorem read_withBlocks (scalar : Scalar) :
    (s.withBlocks heap generation).read address scalar = s.read address scalar := by
  simp only [read, locate_withBlocks hblock, collectBytes_withBlocks]
  rfl

theorem updates_withBlocks (values : ValueSet ι φ) (scalar : Scalar) (forceWeak : Bool) :
    (s.withBlocks heap generation).updates address values scalar forceWeak =
      s.updates address values scalar forceWeak := by
  simp only [updates, locate_withBlocks hblock, isSummary_withBlocks hblock, repack_withBlocks]
  rfl

end Access

section Refusals

variable {s : Store ι φ} {address : Address} {id : Nat}

theorem locate_of_freed (hfreed : s.heap.Freed id) (hbase : address.base = .heap id) :
    s.locate address = .error (.memory (.useAfterFree id)) := by
  obtain ⟨block, hblock, hlive, -⟩ := hfreed
  unfold locate
  rw [hbase]
  simp [liveBlock, hblock, hlive]
  rfl

theorem movePointer_of_freed (hfreed : s.heap.Freed id) (hbase : address.base = .heap id)
    (delta : Int) : s.movePointer address delta = .error (.memory (.useAfterFree id)) := by
  unfold movePointer
  dsimp only
  rw [locate_of_freed hfreed]
  · rfl
  · split <;> exact hbase

theorem free_refused (hbase : address.base = .heap id) (hfree : ∃ fault, s.heap.free id = .error (.memory fault)) :
    ∃ fault, free address s = .error (.memory fault) s := by
  obtain ⟨fault, hfree⟩ := hfree
  unfold free
  rw [hbase]
  dsimp only
  split
  · exact ⟨_, rfl⟩
  · split
    · exact ⟨_, rfl⟩
    · rw [hfree]
      exact ⟨fault, rfl⟩

/-- Freeing changes at most the record of the block that is freed. -/
theorem leaves_free_eq (s : Store ι φ) (freed : Address) :
    ∃ heap generation, leaves (free freed) s = s.withBlocks heap generation ∧
      ∀ id, freed.base ≠ .heap id → heap.blocks[id]? = s.heap.blocks[id]? := by
  rcases free_cases s freed with ⟨fault, hrun⟩ | ⟨-, hrun⟩ | ⟨id, heap, hbase, hfree, hrun⟩
  · exact ⟨s.heap, s.generation, leaves_of_error hrun, fun _ _ => rfl⟩
  · exact ⟨s.heap, s.generation, leaves_of_ok hrun, fun _ _ => rfl⟩
  · refine ⟨heap, s.generation + 1, leaves_of_ok hrun, fun other hother => ?_⟩
    refine getElem?_free hfree fun hsame => hother ?_
    rw [hbase, hsame]

/-- A free that is granted leaves a freed block behind. -/
theorem freed_of_free_ok {s' : Store ι φ} (hsingle : ∀ block ∈ s.heap.blocks, block.summary = false)
    (hbase : address.base ≠ .null) (hrun : free address s = .ok ⟨⟩ s') :
    ∃ id, address.base = .heap id ∧ s'.heap.Freed id := by
  rcases free_cases s address with ⟨fault, hrefused⟩ | ⟨hnull, -⟩ | ⟨id, heap, hid, hfree, hfreed⟩
  · rw [hrefused] at hrun
    cases hrun
  · exact absurd hnull hbase
  · rw [hfreed] at hrun
    cases hrun
    exact ⟨id, hid, freed_of_free hsingle hfree⟩

end Refusals

end Store

/-! ## Memory and its clients -/

/-- Memory as its clients see it: a store, and the continuations kept beside it. -/
structure Memory (ι φ : Type) where
  store : Store ι φ
  konts : KontTable

namespace Memory

variable {ι φ : Type}

def new (target : Target) (update : UpdatePolicy) (heap : HeapPolicy) : Memory ι φ :=
  ⟨.new target update heap, .empty⟩

/-- What clients ask of memory. -/
inductive Access (ι φ : Type) where
  | operation (operation : Operation ι φ)
  | read (address : Address) (scalar : Scalar)
  | move (address : Address) (delta : Int)
  | writeKont (address : KontAddress) (kont : Continuation) (merge : Bool)
  | readKont (address : KontAddress)
  | sweep (roots : List KontAddress)

/-- The object that a read, a write, a pointer that is moved, or a free is about. -/
def Access.base? : Access ι φ → Option Base
  | .operation (.write address ..) | .operation (.free address) | .read address _ | .move address _ =>
    some address.base
  | _ => none

abbrev Access.free (address : Address) : Access ι φ := .operation (.free address)

abbrev Access.literal (site : NodeId) (text : List UInt8) : Access ι φ := .operation (.literal site text)

variable [DecidableEq ι] [BEq φ] [Domain ι φ]

/-- Memory after an access, be it granted or refused. -/
def after (m : Memory ι φ) : Access ι φ → Memory ι φ
  | .operation operation => { m with store := operation.after m.store }
  | .read .. | .move .. | .readKont _ => m
  | .writeKont address kont merge => { m with konts := m.konts.write address kont merge }
  | .sweep roots => { m with konts := m.konts.sweep roots }

/-- Whether an access is granted, or the fault with which it is refused. -/
def answer (m : Memory ι φ) : Access ι φ → Except Fault Unit
  | .operation (.allocate base layout) => verdict (allocate base layout) m.store
  | .operation (.malloc site layout) => verdict (malloc site layout) m.store
  | .operation (.literal site text) => verdict (literal site text) m.store
  | .operation (.free address) => verdict (free address) m.store
  | .operation (.write address values scalar forceWeak) =>
    verdict (write address values scalar forceWeak) m.store
  | .operation (.zeroFill base) => verdict (zeroFill base) m.store
  | .operation (.markSummary _) | .writeKont .. | .sweep _ => .ok ()
  | .read address scalar => (m.store.read address scalar).map fun _ => ()
  | .move address delta => (m.store.movePointer address delta).map fun _ => ()
  | .readKont address => (m.konts.read address).map fun _ => ()

/-- Memory after some accesses, one after the other. -/
def afterAll (m : Memory ι φ) (accesses : List (Access ι φ)) : Memory ι φ := accesses.foldl after m

theorem ages_afterAll (m : Memory ι φ) (accesses : List (Access ι φ)) :
    Ages m.store (m.afterAll accesses).store := by
  induction accesses generalizing m with
  | nil => exact ages.refl m.store
  | cons access rest ih =>
    refine ages.trans ?_ (ih (m.after access))
    cases access with
    | operation operation =>
      exact aging.after (fun _ => trivial) (fun _ _ => ages_of_heap_eq (commit_heap _ _)) operation.uses_trivial m.store
    | read | move | writeKont | readKont | sweep => exact ages.refl m.store

theorem answer_write (m : Memory ι φ) (address : Address) (values : ValueSet ι φ) (scalar : Scalar)
    (forceWeak : Bool) : m.answer (.operation (.write address values scalar forceWeak)) =
      (m.store.updates address values scalar forceWeak).map fun _ => () := by
  simp only [answer, verdict, write]
  cases m.store.updates address values scalar forceWeak <;> rfl

variable {access : Access ι φ}

/-- Nothing about a freed block is granted. -/
theorem refused_of_freed {m : Memory ι φ} {id : Nat} (hfreed : m.store.heap.Freed id)
    (hbase : access.base? = some (.heap id)) : ∃ fault, m.answer access = .error (.memory fault) := by
  unfold Access.base? at hbase
  split at hbase
  next address values scalar forceWeak =>
    rw [answer_write, updates, Store.locate_of_freed hfreed (Option.some.inj hbase)]
    exact ⟨_, rfl⟩
  next address =>
    obtain ⟨fault, hrefused⟩ := free_refused (Option.some.inj hbase) (free_of_freed hfreed)
    exact ⟨fault, by simp only [answer, verdict, hrefused]⟩
  next address scalar =>
    rw [answer, Store.read, Store.locate_of_freed hfreed (Option.some.inj hbase)]
    exact ⟨_, rfl⟩
  next address delta =>
    rw [answer, movePointer_of_freed hfreed (Option.some.inj hbase)]
    exact ⟨_, rfl⟩
  next => cases hbase

/-- What is asked about an object is answered from its own block's record. -/
theorem answer_withBlocks {m : Memory ι φ} {heap : Heap} (generation : Nat) {base : Base}
    (hbase : access.base? = some base)
    (hblock : ∀ id, base = .heap id → heap.blocks[id]? = m.store.heap.blocks[id]?) :
    ({ m with store := m.store.withBlocks heap generation } : Memory ι φ).answer access = m.answer access := by
  unfold Access.base? at hbase
  split at hbase
  next address values scalar forceWeak =>
    cases hbase
    rw [answer_write, answer_write, updates_withBlocks hblock]
  next address =>
    cases hbase
    exact verdict_free_withBlocks hblock generation
  next address scalar =>
    cases hbase
    rw [answer, answer, read_withBlocks hblock]
  next address delta =>
    cases hbase
    rw [answer, answer, movePointer_withBlocks hblock]
  next => cases hbase

variable {address : Address}

theorem answer_after_free (m : Memory ι φ) {base : Base}
    (hbase : access.base? = some base) (hother : base ≠ address.base) :
    (m.after (.free address)).answer access = m.answer access := by
  obtain ⟨heap, generation, hfree, hrecords⟩ := leaves_free_eq m.store address
  have hafter : m.after (.free address) = { m with store := m.store.withBlocks heap generation } :=
    congrArg (Memory.mk · m.konts) hfree
  rw [hafter]
  refine answer_withBlocks generation hbase fun id hid => hrecords id fun hsame => hother ?_
  rw [hid, hsame]

section Concrete

variable {m : Memory ι φ} (hpolicy : m.store.heap.policy = .concrete)

include hpolicy

theorem refused_after_free (hsingle : ∀ block ∈ m.store.heap.blocks, block.summary = false)
    (hnull : address.base ≠ .null) (hgranted : m.answer (.free address) = .ok ())
    (later : List (Access ι φ)) (hbase : access.base? = some address.base) :
    ∃ fault, ((m.after (.free address)).afterAll later).answer access = .error (.memory fault) := by
  obtain ⟨⟨⟩, s, hfree⟩ := exists_of_verdict_ok hgranted
  obtain ⟨id, hid, hfreed⟩ := freed_of_free_ok hsingle hnull hfree
  have hfirst := aging.free address m.store hpolicy
  have hlater := ages_afterAll (m.after (.free address)) later
  change Ages (leaves (free address) m.store) _ at hlater
  rw [leaves_of_ok hfree] at hfirst hlater
  rw [hid] at hbase
  exact refused_of_freed (hfreed.ages (hlater hfirst.policy)) hbase

theorem refused_after_literal (site : NodeId) (text : List UInt8) (later : List (Access ι φ))
    (hbase : address.base = .heap m.store.heap.blocks.size) :
    ∃ fault, ((m.after (.literal site text)).afterAll later).answer (.free address) =
      .error (.memory fault) := by
  have hholds := holdsLiteral_literal hpolicy site text
  have hlater := ages_afterAll (m.after (.literal site text)) later
    (aging.literal (fun _ _ _ => trivial) (fun _ => trivial) (fun _ _ _ => trivial) site text m.store hpolicy).policy
  obtain ⟨fault, hrefused⟩ := free_refused hbase ⟨_, free_of_holdsLiteral (hholds.ages hlater)⟩
  exact ⟨fault, by simp only [answer, verdict, hrefused]⟩

end Concrete

/-- What clients of memory can rely on as to the ends of blocks. -/
structure EndsBlocks (m : Memory ι φ) : Prop where
  /-- After a block was freed, whatever else happens, every read, write, move or free of an
  address in it is refused as a memory fault. -/
  gone : ∀ address, address.base ≠ .null → m.answer (.free address) = .ok () →
    ∀ later access, access.base? = some address.base →
      ∃ fault, ((m.after (.free address)).afterAll later).answer access = .error (.memory fault)
  /-- A free is not noticed through any other object. -/
  apart : ∀ address access base, access.base? = some base →
    base ≠ address.base → (m.after (.free address)).answer access = m.answer access
  /-- A literal gets a block of its own, which is never freed. -/
  literal : ∀ site text later, (∀ address s, literal site text m.store = .ok address s →
      address = ⟨.heap m.store.heap.blocks.size, 0⟩) ∧
    ∀ address, address.base = .heap m.store.heap.blocks.size →
      ∃ fault, ((m.after (.literal site text)).afterAll later).answer (.free address) = .error (.memory fault)

/-- **What was freed stays freed.** Under the concrete heap policy, whatever was asked of
memory before, and whatever is asked of it later. -/
theorem concrete_endsBlocks (target : Target) (update : UpdatePolicy) (earlier : List (Access ι φ)) :
    ((new target update .concrete).afterAll earlier).EndsBlocks := by
  have hages := ages_afterAll (new target update .concrete) earlier rfl
  have hsingle := hages.single (by simp [new, Store.new, Heap.new])
  exact
    { gone := fun _ hnull hgranted later _ hbase =>
        refused_after_free hages.policy hsingle hnull hgranted later hbase
      apart := fun _ _ _ hbase hother => answer_after_free _ hbase hother
      literal := fun site text later =>
        ⟨fun _ _ hliteral => literal_eq_ok hages.policy hliteral,
          fun _ hbase => refused_after_literal hages.policy site text later hbase⟩ }

/-- A block is requested and freed; a second request gets another block, and the first one can
still not be read at any offset. -/
theorem concrete_endsBlocks_second_request :
    let m := (new .gcc .strong .concrete : Memory Int Double).afterAll
      [.operation (.malloc 0 ⟨[⟨4, .int .int⟩], 1⟩)]
    m.answer (.free ⟨.heap 0, 0⟩) = .ok () ∧ ∀ offset scalar, ∃ fault,
        ((m.after (.free ⟨.heap 0, 0⟩)).afterAll [.operation (.malloc 0 ⟨[⟨4, .int .int⟩], 1⟩)]).answer
          (.read ⟨.heap 0, offset⟩ scalar) = .error (.memory fault) := by
  refine ⟨by rfl, fun offset scalar => ?_⟩
  exact (concrete_endsBlocks .gcc .strong _).gone ⟨.heap 0, 0⟩ (by simp) (by rfl) _ _ rfl

end Memory

end CoreC
