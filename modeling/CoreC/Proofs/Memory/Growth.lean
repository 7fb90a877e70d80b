import CoreC.Proofs.Domain.IntegerPattern
import CoreC.Proofs.Memory.Access
import CoreC.Proofs.Memory.HeapRecords
import CoreC.Proofs.Value.Membership

/-! # Memory that only grows

An object stands for several ones when it is a summary, and under the weak policy every
write may be one of several. What such an object once held it holds for good: no request
that a program makes of memory takes an initialized value away from its cells. The one
exception is a block that is cleared when it is handed out a second time, so the statement
asks that a block is cleared only when it is new.
-/

namespace CoreC

open List

variable {base : Base} {ι φ : Type}

namespace Store

/-- Writes to the object add to what it holds. -/
def Weak (s : Store ι φ) (base : Base) : Prop := s.update = .weak ∨ s.isSummary base = true

/-- What may become of a store: cells stay where they are, and those of weak objects keep the
initialized values that they hold. -/
structure Grows (s s' : Store ι φ) : Prop where
  update_eq : s'.update = s.update
  summary : ∀ {base : Base}, s.isSummary base = true → s'.isSummary base = true
  cells : ∀ {key : Nat} {cell : Cell ι φ}, s.cells[key]? = some cell →
    ∃ cell', s'.cells[key]? = some cell' ∧ cell'.base = cell.base ∧ (s.Weak cell.base →
        ∀ v ∈ cell.contents.items, v.isInitialized = true → v ∈ cell'.contents.items)

namespace Grows

variable {s middle s' : Store ι φ}

theorem refl (s : Store ι φ) : s.Grows s := ⟨rfl, id, fun hcell => ⟨_, hcell, rfl, fun _ _ hv _ => hv⟩⟩

theorem weak (hgrows : s.Grows s') (hweak : s.Weak base) : s'.Weak base := by
  rcases hweak with hupdate | hsummary
  · exact .inl (hgrows.update_eq.trans hupdate)
  · exact .inr (hgrows.summary hsummary)

theorem trans (hfirst : s.Grows middle) (hsecond : middle.Grows s') : s.Grows s' where
  update_eq := hsecond.update_eq.trans hfirst.update_eq
  summary hsummary := hsecond.summary (hfirst.summary hsummary)
  cells {key cell} hcell := by
    obtain ⟨cell', hcell', hbase', hheld'⟩ := hfirst.cells hcell
    obtain ⟨cell'', hcell'', hbase'', hheld''⟩ := hsecond.cells hcell'
    refine ⟨cell'', hcell'', hbase''.trans hbase', fun hweak v hv hinit => ?_⟩
    exact hheld'' (by rw [hbase']; exact hfirst.weak hweak) v (hheld' hweak v hv hinit) hinit

end Grows

/-- A sound store stays sound and grows. -/
def Enlarges (s s' : Store ι φ) : Prop := s.Sound → s'.Sound ∧ s.Grows s'

theorem enlargement : Evolution (Enlarges (ι := ι) (φ := φ)) := .under _ ⟨.refl, .trans⟩

/-- An object is a summary by its extent or by the record of its block. -/
theorem isSummary_of {s s' : Store ι φ}
    (hmarked : s.extents[base]?.any (·.summary) = true → s'.extents[base]?.any (·.summary) = true)
    (hblock : ∀ id, s.heap.isSummary id = true → s'.heap.isSummary id = true)
    (hbase : s.isSummary base = true) : s'.isSummary base = true := by
  cases base with
  | null | frame => exact hmarked hbase
  | heap id =>
    simp only [isSummary, Bool.or_eq_true] at hbase ⊢
    exact hbase.imp hmarked (hblock id)

/-- The heap's records may change, as long as summaries stay summaries. -/
theorem enlarges_heap (s : Store ι φ) (heap : Heap) (generation : Nat)
    (hsummary : ∀ id, s.heap.isSummary id = true → heap.isSummary id = true) :
    Enlarges s { s with heap, generation } := fun hs =>
  ⟨hs.withHeap heap generation, rfl, isSummary_of id hsummary,
    fun hcell => ⟨_, hcell, rfl, fun _ _ hv _ => hv⟩⟩

theorem enlarges_markSummary (s : Store ι φ) (base : Base) : Enlarges s (s.markSummary base) := by
  intro hs
  refine ⟨hs.markSummary base, rfl, isSummary_of (fun hother => ?_) fun _ => id,
    fun hcell => ⟨_, hcell, rfl, fun _ _ hv _ => hv⟩⟩
  simp only [Store.markSummary, Std.TreeMap.getElem?_modify, Std.compare_eq_iff_eq]
  split
  next hsame =>
    subst hsame
    cases hextent : s.extents[base]? <;> simp_all
  next => exact hother

theorem enlarges_addObject (s : Store ι φ) (hnew : s.extents[base]? = none) {units : List StorageUnit}
    (hunits : units ≠ []) (hpos : ∀ unit ∈ units, 0 < unit.size) : Enlarges s (s.addObject base units) := by
  intro hs
  refine ⟨hs.addObject hnew hunits hpos, rfl, isSummary_of (fun hother => ?_) fun _ => id, fun hcell =>
    ⟨_, hs.getElem?_addObject base units hcell, rfl, fun _ _ hv _ => hv⟩⟩
  rename_i other
  have hne : base ≠ other := by
    rintro rfl
    simp [hnew] at hother
  change (s.extents.insert base _)[other]?.any (·.summary) = true
  rw [Std.TreeMap.getElem?_insert, if_neg (by simpa using hne)]
  exact hother

section Contents

variable [DecidableEq ι] [BEq φ]

/-- New contents enlarge a store if they take nothing away from its weak objects. -/
theorem enlarges_commit (s : Store ι φ) (updates : List (Nat × ValueSet ι φ))
    (hupdates : s.Sound → ∀ entry ∈ updates, ∀ cell, s.cells[entry.1]? = some cell →
      s.Weak cell.base → ∀ v ∈ cell.contents.items, v.isInitialized = true → v ∈ entry.2.items) :
    Enlarges s (s.commit updates) := by
  intro hs
  refine ⟨hs.commit updates, commit_update s updates, ?_, ?_⟩
  · intro base hbase
    simpa only [isSummary, commit_extents, commit_heap] using hbase
  · intro key cell hcell
    have hcell' := getElem?_commit s updates key
    rw [hcell, Option.map_some] at hcell'
    refine ⟨_, hcell', rfl, fun hweak v hv hinit => ?_⟩
    refine settle_induction (P := fun held => v ∈ held.items) ?_ hv
    rintro entry hentry rfl
    exact hupdates hs entry hentry cell hcell hweak v hv hinit

theorem mem_merge {old : ValueSet ι φ} {v : Value ι φ} (hv : v ∈ old.items)
    (hinit : v.isInitialized = true) (fresh : ValueSet ι φ) : v ∈ (merge true old fresh).items := by
  unfold merge
  split
  · exact old.subset_insertAll fresh.items hv
  next hall =>
    have hall : old.allUninitialized = true := by simpa using hall
    have hmark := all_eq_true.mp hall v hv
    simp [hinit] at hmark

variable {forceWeak : Bool} {s : Store ι φ}

omit [DecidableEq ι] [BEq φ] in
/-- A write to a weak object merges, and so does one that is told to. -/
theorem weak_eq_true (hweak : forceWeak = true ∨ s.Weak base) :
    (forceWeak || decide (s.update = .weak) || s.isSummary base) = true := by
  simpa [Weak, or_assoc] using hweak

variable [Domain ι φ]

/-- A write touches the cells of the object it is aimed at, and merges if the object is weak. -/
theorem Sound.of_mem_updates (hs : s.Sound) {address : Address} {values : ValueSet ι φ} {scalar : Scalar}
    {updates : List (Nat × ValueSet ι φ)}
    (hupdates : s.updates address values scalar forceWeak = .ok updates) :
    ∀ entry ∈ updates, ∃ cell fresh, s.cells[entry.1]? = some cell ∧ cell.base = address.base ∧
      (s.Weak address.base → entry.2 = merge true cell.contents fresh) := by
  intro entry hentry
  obtain ⟨place, cell, fresh, hplace, hreaches, hcell, -, heq⟩ := exists_of_mem_updates hupdates hentry
  obtain ⟨husable, extent, hextent, hnonneg, hlt, -⟩ := locate_eq_ok hplace
  obtain ⟨cells, htiles, -⟩ := hs.tiled hextent
  obtain ⟨offset, hoffset⟩ := Int.eq_ofNat_of_zero_le hnonneg
  have haddress : address = ⟨address.base, offset⟩ := by rw [← hoffset]
  obtain ⟨before, key, held, after, hsplit, -, -, hlocate⟩ :=
    htiles.locate hs.ordered husable (show offset < extent.size by omega)
  rw [haddress, hlocate] at hplace
  cases hplace
  -- the links lead on from the cell that the address is in
  have hkey := hs.ordered.key_pos hcell
  have hrest := (hsplit ▸ htiles.chain).of_append.mem_of_reaches hreaches (by rw [noCell]; omega) hcell
  have hmem : (entry.1, cell) ∈ cells := hsplit ▸ mem_append_right before hrest
  exact ⟨cell, fresh, hcell, (htiles.own _ hmem).1, fun hweak => by rw [heq, weak_eq_true (.inr hweak)]⟩

/-- Where units take bytes, all that operations do but clearing enlarges. -/
theorem enlarging : Allows (fun unit => 0 < unit.size) (Enlarges (ι := ι) (φ := φ)) where
  toEvolution := enlargement
  recorded s site size kind := enlarges_heap s _ _ fun _ => Heap.isSummary_allocate site size kind
  freed hfree := enlarges_heap _ _ _ fun id => (Heap.isSummary_free hfree id).trans
  summary := enlarges_markSummary
  object _ hnew hunits hpos := enlarges_addObject _ hnew hunits hpos
  written {s address _ _ _ updates} _ hupdates := by
    refine enlarges_commit s updates fun hs entry hentry cell hcell hweak v hv hinit => ?_
    obtain ⟨touched, fresh, htouched, hbase, hmerged⟩ := hs.of_mem_updates hupdates entry hentry
    rw [hcell] at htouched
    cases htouched
    rw [hmerged (hbase ▸ hweak)]
    exact mem_merge hv hinit fresh

/-- Clearing an object touches its own cells. -/
theorem Sound.of_mem_zeroUpdates (hs : s.Sound) {extent : Extent} (hextent : s.extents[base]? = some extent)
    {fuel : Nat} {updates : List (Nat × ValueSet ι φ)} (hupdates : s.zeroUpdates fuel extent.first = .ok updates) :
    ∀ entry ∈ updates, ∀ cell, s.cells[entry.1]? = some cell → cell.base = base := by
  intro entry hentry cell hcell
  obtain ⟨cells, htiles, -⟩ := hs.tiled hextent
  obtain ⟨hreaches, -⟩ := (renewal_zeroUpdates hupdates).of_mem .refl entry hentry
  have hkey := hs.ordered.key_pos hcell
  exact (htiles.own _ (htiles.chain.mem_of_reaches hreaches (by rw [noCell]; omega) hcell)).1

/-- Clearing an object that was never written takes nothing away. -/
theorem enlarges_zeroFill (s : Store ι φ) (base : Base)
    (hunwritten : ∀ {key : Nat} {cell : Cell ι φ}, s.cells[key]? = some cell → cell.base = base →
      ∀ v ∈ cell.contents.items, v.isInitialized = false) :
    Enlarges s (leaves (zeroFill base) s) := by
  rcases leaves_zeroFill s base with heq | ⟨extent, updates, hextent, hupdates, heq⟩ <;> rw [heq]
  · exact enlargement.refl s
  · refine enlarges_commit s updates fun hs entry hentry cell hcell _ v hv hinit => ?_
    rw [hunwritten hcell (hs.of_mem_zeroUpdates hextent hupdates entry hentry cell hcell) v hv] at hinit
    cases hinit

end Contents

/-- What a program asks of memory: storage for a variable, a heap block, a heap block that is
cleared, a string literal, the end of a block, or a write. -/
inductive Request (ι φ : Type) where
  | binding (frame : FrameId) (name : String) (layout : Layout)
  | malloc (site : NodeId) (layout : Layout)
  | calloc (site : NodeId) (layout : Layout)
  | literal (site : NodeId) (text : List UInt8)
  | free (address : Address)
  | write (address : Address) (values : ValueSet ι φ) (scalar : Scalar) (forceWeak : Bool)

namespace Request

/-- Every unit of the object that is asked for takes bytes. -/
def Solid : Request ι φ → Prop
  | .binding _ _ layout | .malloc _ layout | .calloc _ layout =>
    ∀ unit ∈ layout.units, 0 < unit.size
  | _ => True

/-- The site of a request for a heap block. -/
def blockSite? : Request ι φ → Option NodeId
  | .malloc site _ | .calloc site _ => some site
  | _ => none

/-- The site of a request for a cleared heap block. -/
def clearedSite? : Request ι φ → Option NodeId
  | .calloc site _ => some site
  | _ => none

/-- Where one site owns one block, no block is cleared for a site that had asked for one
before. -/
def ClearsNew (heap : HeapPolicy) (requests : List (Request ι φ)) : Prop :=
  heap = .abstract → requests.Pairwise fun earlier later =>
    ∀ site, earlier.blockSite? = some site → later.clearedSite? ≠ some site

variable [DecidableEq ι] [BEq φ] [Domain ι φ]

/-- The store after a request, be it granted or refused. -/
def after (s : Store ι φ) : Request ι φ → Store ι φ
  | .binding frame name layout => leaves (allocate (.frame frame name) layout) s
  | .malloc site layout => leaves (Store.malloc site layout) s
  | .calloc site layout =>
    leaves (do let address ← Store.malloc site layout; zeroFill address.base) s
  | .literal site text => leaves (Store.literal site text) s
  | .free address => leaves (Store.free address) s
  | .write address values scalar forceWeak => leaves (Store.write address values scalar forceWeak) s

end Request

section Requests

variable [DecidableEq ι] [BEq φ] [Domain ι φ] {s : Store ι φ} {policy : HeapPolicy}
  {asked : List NodeId}

section

variable (hs : s.Issued policy asked)

include hs

/-- Clearing a block when it is handed out takes nothing away, if its site owned none. -/
theorem Issued.enlarges_calloc {site : NodeId}
    (hsite : policy = .abstract → site ∉ asked) {layout : Layout}
    (hsolid : ∀ unit ∈ layout.units, 0 < unit.size) :
    Enlarges s (leaves (do let address ← Store.malloc site layout; zeroFill address.base) s) := by
  intro hsound
  have hnew := hs.extents_size
  have hmalloc := enlarging.malloc (fun _ _ _ => trivial) site hsolid s
  rw [leaves_bind]
  cases hrun : Store.malloc site layout s with
  | error fault middle =>
    rw [leaves_of_error hrun] at hmalloc
    exact hmalloc hsound
  | ok address middle =>
    rw [leaves_of_ok hrun] at hmalloc
    refine enlargement.trans hmalloc (enlarges_zeroFill middle address.base ?_) hsound
    rw [malloc_of_unowned (hs.unowned hsite)] at hrun
    obtain ⟨rfl, -, -, rfl⟩ := allocate_ok_of_new (by exact hnew) hrun
    exact unwritten_addObject (hsound.withHeap _ s.generation).ordered hnew layout.flatten

/-- One request: weak objects keep what they hold. -/
theorem Request.enlarges {request : Request ι φ} (hsolid : request.Solid)
    (hnew : policy = .abstract → ∀ site ∈ asked, request.clearedSite? ≠ some site) :
    Enlarges s (request.after s) := by
  cases request with
  | binding frame name layout => exact enlarging.allocate trivial hsolid
  | malloc site layout => exact enlarging.malloc (fun _ _ _ => trivial) site hsolid s
  | calloc site layout =>
    exact hs.enlarges_calloc (fun hpolicy hasked => hnew hpolicy site hasked rfl) hsolid
  | literal site text =>
    exact enlarging.literal (fun _ _ _ => trivial) (fun t => t.intWidth_pos .char) (fun _ _ _ => trivial)
      site text s
  | free address => exact enlarging.free address s
  | write address values scalar forceWeak => exact enlarging.write address (fun _ => trivial) s

theorem Request.issued (request : Request ι φ) :
    (request.after s).Issued policy (request.blockSite?.toList ++ asked) := by
  cases request with
  | binding frame name layout => exact hs.allocate layout (by rintro _ ⟨⟩)
  | malloc site layout => exact hs.malloc site layout
  | calloc site layout =>
    have hmalloc := hs.malloc site layout
    change (leaves (Store.malloc site layout >>= fun address => zeroFill address.base) s).Issued
      policy (site :: asked)
    rw [leaves_bind]
    cases hrun : Store.malloc site layout s with
    | error fault middle => exact leaves_of_error hrun ▸ hmalloc
    | ok address middle =>
      exact (leaves_of_ok hrun ▸ hmalloc).of_same (recording.zeroFill _ (fun _ _ => sameRecords_commit _ _) middle)
  | literal site text => exact hs.literal site text
  | free address => exact hs.free address
  | write address values scalar forceWeak => exact hs.of_same (recording.write_at address trivial)

/-- Requests one after the other: weak objects keep what they hold. -/
theorem enlarges_run {requests : List (Request ι φ)}
    (hsolid : ∀ request ∈ requests, request.Solid) (hnew : Request.ClearsNew policy requests)
    (hasked : policy = .abstract → ∀ request ∈ requests, ∀ site ∈ asked,
      request.clearedSite? ≠ some site) :
    Enlarges s (requests.foldl Request.after s) := by
  induction requests generalizing s asked with
  | nil => exact enlargement.refl s
  | cons request rest ih =>
    have hstep := Request.enlarges hs (hsolid request mem_cons_self)
      fun hpolicy => hasked hpolicy request mem_cons_self
    refine enlargement.trans hstep (ih (Request.issued hs request) ?_ ?_ ?_)
    · exact fun other hother => hsolid other (mem_cons_of_mem _ hother)
    · exact fun hpolicy => (hnew hpolicy).of_cons
    · intro hpolicy other hother site hsite
      rcases mem_append.mp hsite with hblock | hold
      · have hcross := (pairwise_cons.mp (hnew hpolicy)).1 other hother site
        exact hcross (by simpa using hblock)
      · exact hasked hpolicy other (mem_cons_of_mem _ hother) site hold

theorem issued_run (requests : List (Request ι φ)) : (requests.foldl Request.after s).Issued policy
      ((requests.filterMap Request.blockSite?).reverse ++ asked) := by
  induction requests generalizing s asked with
  | nil => exact hs
  | cons request rest ih =>
    have hrest := ih (Request.issued hs request)
    cases hsite : request.blockSite? <;> simpa [hsite] using hrest

end

end Requests

variable [DecidableEq ι] [BEq φ] [Domain ι φ]

/-- **Weak objects only grow.** However memory was built and whatever is asked of it next,
granted or refused: a cell of an object that is a summary, or of any object under the weak
policy, stays where it is and keeps every initialized value that it holds. Units have to
take bytes, and where a site owns one block, blocks are cleared only for sites that had asked
for none before. -/
theorem weakContents_grow (target : Target) (update : UpdatePolicy) (heap : HeapPolicy)
    {earlier later : List (Request ι φ)} (hsolid : ∀ request ∈ earlier ++ later, request.Solid)
    (hnew : Request.ClearsNew heap (earlier ++ later)) :
    let s := earlier.foldl Request.after (new target update heap)
    let s' := later.foldl Request.after s
    ∀ (key : Nat) (cell : Cell ι φ), s.cells[key]? = some cell → s.Weak cell.base →
      ∃ cell', s'.cells[key]? = some cell' ∧ cell'.base = cell.base ∧ s'.Weak cell.base ∧
        ∀ v ∈ cell.contents.items, v.isInitialized = true → v ∈ cell'.contents.items := by
  intro s s' key cell hcell hweak
  have hissued := issued_run (issued_new (ι := ι) (φ := φ) target update heap) earlier
  have hearlier : Enlarges (new target update heap) s := by
    refine enlarges_run (issued_new target update heap) ?_ ?_ (by simp)
    · exact fun request hrequest => hsolid request (mem_append_left _ hrequest)
    · exact fun hpolicy => (pairwise_append.mp (hnew hpolicy)).1
  have hlater : Enlarges s s' := by
    refine enlarges_run hissued ?_ ?_ ?_
    · exact fun request hrequest => hsolid request (mem_append_right _ hrequest)
    · exact fun hpolicy => (pairwise_append.mp (hnew hpolicy)).2.1
    · intro hpolicy request hrequest site hsite
      obtain ⟨asking, hasking, hblock⟩ : ∃ asking ∈ earlier, asking.blockSite? = some site := by
        simpa using hsite
      exact (pairwise_append.mp (hnew hpolicy)).2.2 asking hasking request hrequest site hblock
  obtain ⟨hsound, -⟩ := hearlier (sound_new target update heap)
  obtain ⟨-, hgrows⟩ := hlater hsound
  obtain ⟨cell', hcell', hbase, hheld⟩ := hgrows.cells hcell
  exact ⟨cell', hcell', hbase, hgrows.weak hweak, hheld hweak⟩

/-- One `int`. -/
def intLayout : Layout := ⟨[⟨4, .int .int⟩], 1⟩

/-- A site asks for a block twice, which makes the block a summary, and 7 is written to it. -/
def sharedBlock : List (Request Int Double) :=
  [.malloc 0 intLayout, .malloc 0 intLayout,
   .write ⟨.heap 0, 0⟩ (.singleton (.int 7 .int)) (.int .int) false]

/-- The shared block still holds 7 after another site got a cleared block and 8 was written
to the shared one. -/
theorem sharedBlock_grows :
    let later : List (Request Int Double) := [.calloc 1 intLayout,
      .write ⟨.heap 0, 0⟩ (.singleton (.int 8 .int)) (.int .int) false]
    Request.ClearsNew .abstract (sharedBlock ++ later) ∧
    ∃ cell, (later.foldl Request.after (sharedBlock.foldl Request.after
      (new .packed .strong .abstract))).cells[1]? = some cell ∧
      .int 7 .int ∈ cell.contents.items := by
  intro later
  have hsolid : ∀ request ∈ sharedBlock ++ later, request.Solid := by
    simp [sharedBlock, later, Request.Solid, intLayout]
  have hnew : Request.ClearsNew .abstract (sharedBlock ++ later) := by
    intro _
    simp [sharedBlock, later, Request.blockSite?, Request.clearedSite?]
  obtain ⟨cell, hcell, -, -, hheld⟩ := weakContents_grow .packed .strong .abstract hsolid hnew 1
    ⟨.heap 0, 0, 4, .int .int, .singleton (.int 7 .int), 0, 0⟩ rfl (.inr rfl)
  exact ⟨hnew, cell, hcell, hheld _ mem_cons_self rfl⟩

/-- The shared block forgets 7 when its site asks for a cleared block: it is a summary, holds
7, and holds only 0 afterwards. -/
theorem sharedBlock_forgets :
    let s := sharedBlock.foldl Request.after (new .packed .strong .abstract)
    s.Weak (.heap 0) ∧
    s.cells[1]?.map (·.contents.items) = some [.int 7 .int] ∧
    ((Request.calloc 0 intLayout).after s).cells[1]?.map (·.contents.items) = some [.int 0 .int] :=
  ⟨.inr rfl, rfl, rfl⟩

end Store

end CoreC
