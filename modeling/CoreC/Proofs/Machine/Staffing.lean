import CoreC.Proofs.Machine.Accounting
import CoreC.Proofs.Task.Roster

/-! # Continuations and the books of the teams

What a live task is at can be read off the continuations in front of it: the regions that its
thread opened are those that it leaves to wait for the others, and a region made the thread if
the last continuation ends a task of that region. The books of the teams agree with this
throughout a step.
-/

namespace CoreC

open List Continuation KontTable

namespace Continuation

/-- Whether a task leaves a region through the continuation, to wait for the others. -/
def awaits (kont : Continuation) : Bool :=
  match kont.kind with
  | .release _ .wait => true
  | _ => false

variable {kont : Continuation}

theorem endsWorker_of_isLast {p : Program} (hlast : kont.isLast = false) :
    kont.endsWorker p = false := by
  unfold isLast at hlast
  unfold endsWorker
  split at hlast
  · cases hlast
  next hnot =>
    split
    next node hkind => exact absurd hkind (hnot _)
    next => rfl

theorem awaits_of_isLast (hlast : kont.isLast = true) : kont.awaits = false := by
  unfold isLast at hlast
  unfold awaits
  split at hlast
  next hkind => rw [hkind]
  next => cases hlast

theorem isLast_of_awaits (hawaits : kont.awaits = true) : kont.isLast = false := by
  cases hlast : kont.isLast with
  | false => rfl
  | true =>
    rw [awaits_of_isLast hlast] at hawaits
    cases hawaits

theorem IsPlain.awaits (hplain : kont.IsPlain) : kont.awaits = false := by
  unfold Continuation.awaits
  split
  next barrier hkind => exact absurd hkind (hplain barrier .wait)
  next => rfl

end Continuation

namespace KontTable

/-- The addresses that a task passes from an address on, with their continuations. -/
def route (t : KontTable) (address : KontAddress) : List (KontAddress × Continuation) :=
  (address :: (t.activeChain address).map (·.parent)).zip (t.activeChain address)

/-- Where a task leaves a region to wait for the others, innermost first. -/
def joins (t : KontTable) (address : KontAddress) : List KontAddress :=
  ((t.route address).filter (·.2.awaits)).map (·.1)

/-- Whether a parallel region made the task. -/
def isWorker (t : KontTable) (p : Program) (address : KontAddress) : Bool :=
  (t.activeChain address).getLast?.any (·.endsWorker p)

section Route

variable {t : KontTable} {next address : KontAddress} {kont : Continuation}

theorem activeChain_of_none (hslot : t.slots[address]? = none) : t.activeChain address = [] := by
  unfold activeChain
  cases address <;> simp [chainWithin, hslot]

section

variable (hlinked : t.Linked next)

include hlinked

section

variable (hslot : t.slots[address]? = some [kont])

include hslot

theorem Linked.route_eq :
    t.route address = (address, kont) :: if kont.isLast then [] else t.route kont.parent := by
  unfold route
  rw [hlinked.activeChain_eq hslot]
  split <;> simp

theorem Linked.joins_eq : t.joins address =
      (if kont.awaits then [address] else []) ++ if kont.isLast then [] else t.joins kont.parent := by
  unfold joins
  rw [hlinked.route_eq hslot]
  cases hawaits : kont.awaits <;> split <;> simp [hawaits]

theorem Linked.isWorker_eq (p : Program) :
    t.isWorker p address = if kont.isLast then kont.endsWorker p else t.isWorker p kont.parent := by
  unfold isWorker
  rw [hlinked.activeChain_eq hslot]
  split
  · simp
  next hlast =>
    cases hchain : t.activeChain kont.parent with
    | nil => simpa using endsWorker_of_isLast (by simpa using hlast)
    | cons first later => simp [getLast?_cons]

end

/-- What a route passes is stored there, and lies at the address or below. Nothing is passed twice. -/
theorem Linked.route_spec (address : KontAddress) :
    (∀ entry ∈ t.route address, t.slots[entry.1]? = some [entry.2] ∧ entry.1 ≤ address) ∧
      ((t.route address).map (·.1)).Nodup := by
  induction address using Nat.strongRecOn with
  | ind address ih =>
    cases hslot : t.slots[address]? with
    | none => simp [route, activeChain_of_none hslot]
    | some konts =>
      obtain ⟨held, rfl, hparent, -⟩ := hlinked.slot hslot
      obtain ⟨hstored, hnodup⟩ := ih held.parent hparent
      rw [hlinked.route_eq hslot, forall_mem_cons, map_cons, nodup_cons]
      split
      · simp [hslot]
      · refine ⟨⟨⟨hslot, Nat.le_refl _⟩, fun entry hentry => ?_⟩, fun hmem => ?_, hnodup⟩
        · exact (hstored entry hentry).imp_right fun hbelow => Nat.le_trans hbelow (Nat.le_of_lt hparent)
        · obtain ⟨entry, hpassed, rfl⟩ := mem_map.mp hmem
          exact Nat.lt_irrefl _ (Nat.lt_of_le_of_lt (hstored entry hpassed).2 hparent)

/-- A region that is left to wait for the others is joined where the route passes it. -/
theorem Linked.mem_joins_iff {passed : KontAddress}
    (hslot : t.slots[passed]? = some [kont]) (hawaits : kont.awaits = true) :
    passed ∈ t.joins address ↔ passed ∈ (t.route address).map (·.1) := by
  simp only [joins, mem_map, mem_filter]
  constructor
  · rintro ⟨entry, ⟨hentry, -⟩, heq⟩
    exact ⟨entry, hentry, heq⟩
  · rintro ⟨⟨other, held⟩, hentry, rfl⟩
    cases hslot.symm.trans ((hlinked.route_spec address).1 _ hentry).1
    exact ⟨_, ⟨hentry, hawaits⟩, rfl⟩

end

end Route

end KontTable

namespace Machine

variable {ι φ : Type}

/-- What a live task is at. -/
def post (m : Machine ι φ) (state : State) : Post :=
  ⟨state.thread, m.konts.joins state.kont, m.konts.isWorker m.program state.kont⟩

section Posts

variable {m : Machine ι φ} {state next : State} {live : List State} {kont : Continuation}

/-- Posts are read off the program and the continuations. -/
theorem post_congr {m' : Machine ι φ} (houtline : m'.outline = m.outline) (hkonts : m'.konts = m.konts) :
    m'.post = m.post := by
  funext state
  simp only [post, program, hkonts, houtline]

/-- A continuation at a fresh address changes nobody's post. -/
theorem map_post_withKont (hlinked : m.konts.Linked m.allocator.next) (kont : Continuation)
    (hknown : ∀ state ∈ live, state.kont < m.allocator.next) :
    live.map (m.withKont kont).post = live.map m.post := by
  refine map_congr_left fun state hstate => ?_
  have hchain := hlinked.activeChain_write kont (hknown state hstate)
  simp only [post, joins, route, isWorker, withKont, program, hchain]

/-- The post of a task under a fresh continuation. -/
theorem post_withKont (hlinked : m.konts.Linked m.allocator.next) (hparent : kont.parent < m.allocator.next)
    (hkont : next.kont = m.allocator.next) :
    (m.withKont kont).post next = ⟨next.thread, (if kont.awaits then [next.kont] else []) ++
        if kont.isLast then [] else m.konts.joins kont.parent,
        if kont.isLast then kont.endsWorker m.program else m.konts.isWorker m.program kont.parent⟩ := by
  have hslot : (m.withKont kont).konts.slots[next.kont]? = some [kont] := hkont ▸ withKont_slot m kont
  have hnext : (m.withKont kont).konts.Linked (m.allocator.next + 1) := hlinked.write hparent
  have hchain := hlinked.activeChain_write kont hparent
  have hjoins : (m.withKont kont).konts.joins kont.parent = m.konts.joins kont.parent := by
    simp only [joins, route, withKont, hchain]
  have hworker : (m.withKont kont).konts.isWorker m.program kont.parent =
      m.konts.isWorker m.program kont.parent := by
    simp only [isWorker, withKont, hchain]
  rw [post, hnext.joins_eq hslot, hnext.isWorker_eq hslot, hjoins, ← hworker]
  rfl

end Posts

/-- The books of the teams agree with the continuations of the live tasks. -/
structure Staffed (limit promised : Nat) (regions : List Region) (live : List State)
    (m : Machine ι φ) : Prop where
  books : m.teams.Staffed limit promised regions (live.map m.post)
  awaited : ∀ region ∈ regions, ∃ kont,
    m.konts.slots[region.address]? = some [kont] ∧ kont.awaits = true
  addresses : (regions.map (·.address)).Nodup

variable {t entered : Teams}

namespace Staffed

variable {m m' : Machine ι φ} {limit promised : Nat} {regions : List Region} {state next : State}
  {rest live live' : List State} {kont : Continuation} {bound : KontAddress}

section

variable (hm : Staffed limit promised regions live m)

include hm

theorem still (hstill : Still m m') : Staffed limit promised regions live m' where
  books := by
    rw [post_congr hstill.outline hstill.konts]
    exact hm.books.congr (.refl _) (by rw [hstill.teams])
  awaited := by rw [hstill.konts]; exact hm.awaited
  addresses := hm.addresses

theorem leaveBarrier (barrier : Barrier) :
    Staffed limit promised regions live { m with teams := m.teams.leaveBarrier barrier } :=
  ⟨hm.books.congr (.refl _) rfl, hm.awaited, hm.addresses⟩

theorem perm (hperm : live.Perm live') :
    Staffed limit promised regions live' m := ⟨hm.books.congr (hperm.map _) rfl, hm.awaited, hm.addresses⟩

end

section

variable (hm : Staffed limit promised regions (state :: rest) m)

include hm

/-- Of a live task only its post matters. -/
theorem exchange (hpost : m.post next = m.post state) :
    Staffed limit promised regions (next :: rest) m := by
  have hbooks := hm.books
  rw [map_cons, ← hpost] at hbooks
  exact { hm with books := hbooks }

theorem proceed (hkont : next.kont = state.kont)
    (hthread : next.thread = state.thread) : Staffed limit promised regions (next :: rest) m :=
  hm.exchange (by simp only [post, hkont, hthread])

/-- A task at a continuation with which it ends, or at the end of the program. -/
theorem drop (hjoins : m.konts.joins state.kont = [])
    (hworker : m.konts.isWorker m.program state.kont = false) : Staffed limit promised regions rest m :=
  { hm with books := hm.books.drop hjoins hworker }

variable (hlinked : m.konts.Linked bound) (hslot : m.konts.slots[state.kont]? = some [kont])

include hlinked hslot

/-- A continuation under which the task is at the same post as under its parent. -/
theorem pop (hlast : kont.isLast = false)
    (hawaits : kont.awaits = false) (hkont : next.kont = kont.parent)
    (hthread : next.thread = state.thread) : Staffed limit promised regions (next :: rest) m := by
  refine hm.exchange ?_
  simp [post, hlinked.joins_eq hslot, hlinked.isWorker_eq hslot, hlast, hawaits, hkont, hthread]

/-- A worker comes to its end. -/
theorem retire (hlast : kont.isLast = true) (hworker : kont.endsWorker m.program = true) :
    Staffed limit promised regions rest { m with teams := m.teams.retire state.thread } := by
  refine { hm with books := hm.books.retire ?_ ?_ }
  · simp [post, hlinked.joins_eq hslot, hlast, awaits_of_isLast hlast]
  · simp [post, hlinked.isWorker_eq hslot, hlast, hworker]

/-- The thread that opened a region leaves it. -/
theorem join (hawaits : kont.awaits = true)
    (hkont : next.kont = kont.parent) (hthread : next.thread = state.thread) :
    Staffed limit promised regions (next :: rest) { m with teams := m.teams.leaveTeam state.thread } := by
  have hlast := isLast_of_awaits hawaits
  have hjoins : (m.post state).joins = state.kont :: m.konts.joins kont.parent := by
    simp [post, hlinked.joins_eq hslot, hlast, hawaits]
  have hpost : m.post next = { m.post state with joins := m.konts.joins kont.parent } := by
    simp [post, hlinked.isWorker_eq hslot, hlast, hkont, hthread]
  have hbooks := hm.books.join hjoins
  rw [← hpost] at hbooks
  exact { hm with books := hbooks }

end

section Push

variable {entering : List Barrier} {middle : Machine ι φ} {promised' : Nat} {regions' : List Region}

/-- A task is put under a fresh continuation, in a machine whose books are ready for it. -/
theorem push (hm : Staffed limit promised regions live m) (haccounted : Accounted entering live m)
    (hlive : ∀ state ∈ live', state ∈ live)
    (hentered : entered = { t with barriers := entered.barriers })
    (hstill : Still { m with teams := entered } middle) (hparent : kont.parent < m.allocator.next)
    (hkont : next.kont = m.allocator.next) (hbooks : t.Staffed limit promised' regions'
      (⟨next.thread, (if kont.awaits then [next.kont] else []) ++
        if kont.isLast then [] else m.konts.joins kont.parent,
        if kont.isLast then kont.endsWorker m.program else m.konts.isWorker m.program kont.parent⟩ ::
        live'.map m.post))
    (hregions : ∀ region ∈ regions', region ∈ regions ∨ region.address = next.kont ∧ kont.awaits = true)
    (haddresses : (regions'.map (·.address)).Nodup) :
    Staffed limit promised' regions' (next :: live') (middle.withKont kont) where
  books := by
    have hprogram : middle.program = m.program := hstill.program
    have hlinked : middle.konts.Linked middle.allocator.next := by
      rw [hstill.konts, hstill.allocator]
      exact haccounted.linked
    have hknown : ∀ state ∈ live', state.kont < middle.allocator.next := by
      rw [hstill.allocator]
      exact fun state hstate => haccounted.known state (hlive state hstate)
    rw [map_cons, map_post_withKont hlinked kont hknown, post_congr hstill.outline hstill.konts,
      post_withKont hlinked (by rwa [hstill.allocator]) (by rwa [hstill.allocator]), hprogram, hstill.konts]
    have hteams : middle.teams = { entered with numThreads := middle.teams.numThreads } := hstill.teams
    rw [hentered] at hteams
    exact hbooks.congr (.refl _) (by rw [withKont, hteams])
  awaited := by
    have hwithin : m.konts.Within (middle.withKont kont).konts := by
      rw [withKont, hstill.konts, hstill.allocator]
      exact .write haccounted.linked kont
    intro region hregion
    rcases hregions region hregion with hold | ⟨hnew, hawaits⟩
    · obtain ⟨held, hslot, hawaits⟩ := hm.awaited region hold
      exact ⟨held, hwithin _ _ hslot, hawaits⟩
    · refine ⟨kont, ?_, hawaits⟩
      rw [hnew, hkont, ← withKont_slot middle kont, hstill.allocator]
  addresses := haddresses

/-- A task goes on under a continuation with which it leaves no region. -/
theorem push_under (hm : Staffed limit promised regions (state :: rest) m)
    (haccounted : Accounted entering (state :: rest) m)
    (hentered : entered = { m.teams with barriers := entered.barriers })
    (hstill : Still { m with teams := entered } middle) (hlast : kont.isLast = false)
    (hawaits : kont.awaits = false) (hparent : kont.parent = state.kont)
    (hkont : next.kont = m.allocator.next) (hthread : next.thread = state.thread) :
    Staffed limit promised regions (next :: rest) (middle.withKont kont) := by
  have hstate : kont.parent < m.allocator.next := hparent ▸ haccounted.known state mem_cons_self
  refine hm.push haccounted (fun _ hrest => mem_cons_of_mem _ hrest) hentered hstill hstate hkont ?_
    (fun _ hregion => .inl hregion) hm.addresses
  have hbooks := hm.books
  simpa [hlast, hawaits, hparent, hthread, post] using hbooks

/-- A new task starts a block with which it ends, once its thread is on the books. -/
theorem enlist (hm : Staffed limit promised regions live m) (haccounted : Accounted entering live m)
    {task : BlockTask} {node : NodeId} (hstarts : Starts state task { m with teams := t } next m')
    (hmode : task.mode = .die) (hbarrier : task.barrier = .construct node)
    (hbelow : state.kont < m.allocator.next) (hbooks : t.Staffed limit promised' regions
      (⟨task.thread, [], m.program.isRegion node⟩ :: live.map m.post)) :
    Staffed limit promised' regions (next :: live) m' := by
  cases hstarts with
  | start hstill hkont hthread =>
    refine hm.push haccounted (fun _ hlive => hlive) rfl hstill hbelow hkont ?_
      (fun _ hregion => .inl hregion) hm.addresses
    simpa [isLast, Continuation.awaits, endsWorker, hmode, hbarrier, hthread] using hbooks

/-- A thread opens a region, to wait for the others at its end. -/
theorem openRegion (hm : Staffed limit 0 regions (state :: rest) m)
    (haccounted : Accounted entering (state :: rest) m) {requested : Option Nat} {spare : Nat}
    (hspare : m.teams.spareThreads requested = spare) {task : BlockTask}
    (ht : t = (m.teams.takeThreads requested).2.enterTeam state.thread ⟨0, spare + 1, 0 < spare⟩)
    (hstarts : Starts state task { m with teams := t } next m') (hmode : task.mode = .wait)
    (hthread : task.thread = state.thread) :
    Staffed limit spare (⟨state.thread, next.kont, spare⟩ :: regions) (next :: rest) m' := by
  cases hstarts with
  | start hstill hkont hnext =>
    -- Regions are known by the continuation that waits for them, and this one was not there yet.
    have hfresh : ∀ region ∈ regions, region.address ≠ next.kont := by
      intro region hregion
      obtain ⟨held, hslot, -⟩ := hm.awaited region hregion
      obtain ⟨-, -, -, hbelow⟩ := haccounted.linked.slot hslot
      rw [hkont]
      exact Nat.ne_of_lt hbelow
    refine hm.push haccounted (fun _ hrest => mem_cons_of_mem _ hrest) rfl hstill
      (haccounted.known state mem_cons_self) hkont ?_ (fun region hregion => ?_) ?_
    · have hbooks := hm.books.openRegion requested hfresh
      rw [hspare] at hbooks
      simpa [isLast, Continuation.awaits, hmode, hnext, hthread, post, ht] using hbooks
    · rcases mem_cons.mp hregion with rfl | hold
      · exact .inr ⟨rfl, by simp [Continuation.awaits, hmode]⟩
      · exact .inl hold
    · refine nodup_cons.mpr ⟨fun hmem => ?_, hm.addresses⟩
      obtain ⟨region, hregion, heq⟩ := mem_map.mp hmem
      exact hfresh region hregion heq

end Push

end Staffed

end Machine

end CoreC
