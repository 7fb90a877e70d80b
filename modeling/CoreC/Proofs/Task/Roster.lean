import CoreC.Kont.Basic
import CoreC.Task.Team
import Mathlib.Data.List.Nodup
import Mathlib.Data.List.Perm.Lattice

/-! # The books of the teams

The teams keep a count of the threads at work and a count of the active parallel regions, both
updated with arithmetic that is cut off below. They are right as long as the books agree with
what the live threads are at: who was made by a region, and which regions a thread opened and
is still to join. Each operation on the teams keeps the books when a thread changes its post in
the corresponding way.
-/

namespace CoreC

open List Std

variable {address : KontAddress} {creator : ThreadId}

/-- A parallel region that was opened. -/
structure Region where
  /-- The thread that met the construct. -/
  thread : ThreadId
  /-- The continuation at which that thread leaves the region. -/
  address : KontAddress
  /-- Threads that the region obtained besides. -/
  workers : Nat
  deriving DecidableEq

/-- Whether the region that is left at an address obtained a worker. -/
def Region.isActive (regions : List Region) (address : KontAddress) : Bool :=
  regions.any fun region => region.address = address ∧ 0 < region.workers

/-- What a live thread is at. -/
structure Post where
  thread : ThreadId
  /-- Where the thread leaves the regions that it opened, innermost first. -/
  joins : List KontAddress
  /-- Whether a parallel region made the thread. -/
  worker : Bool

namespace Teams

/-- For each team that a thread is in, whether the thread made it active. -/
def flags (t : Teams) (thread : ThreadId) : List Bool := (t.slots.getD thread []).map (·.active)

section Flags

variable (t : Teams) (thread other : ThreadId)

theorem flags_enterTeam (slot : TeamSlot) : (t.enterTeam thread slot).flags other =
    if thread = other then slot.active :: t.flags other else t.flags other := by
  simp only [flags, enterTeam, TreeMap.getD_insert, Std.compare_eq_iff_eq]
  split
  next heq => rw [heq, map_cons]
  next => rfl

theorem flags_leaveTeam : (t.leaveTeam thread).flags other =
    if thread = other then (t.flags other).tail else t.flags other := by
  unfold leaveTeam
  split
  next hnone =>
    split
    next heq =>
      subst heq
      simp [flags, hnone]
    next => rfl
  next slot rest hsome =>
    simp only [flags, TreeMap.getD_insert, Std.compare_eq_iff_eq]
    split
    next heq =>
      subst heq
      rw [hsome, map_cons, tail_cons]
    next => rfl

theorem activeLevels_leaveTeam {active : Bool} {rest : List Bool} (hflags : t.flags thread = active :: rest) :
    (t.leaveTeam thread).activeLevels = if active then t.activeLevels - 1 else t.activeLevels := by
  obtain ⟨slot, rest, hslots, rfl, -⟩ := map_eq_cons_iff.mp hflags
  simp only [leaveTeam, hslots]

theorem flags_retire : (t.retire thread).flags other =
    if thread = other then [] else t.flags other := by
  simp only [flags, retire, TreeMap.getD_erase, Std.compare_eq_iff_eq]
  split <;> rfl

theorem flags_inherit_of_ne (hne : thread ≠ other) :
    (t.inherit creator thread).flags other = t.flags other := by
  unfold inherit
  split
  · simp [flags, TreeMap.getD_insert, hne]
  · rfl

/-- A position that was handed on makes no region active. -/
theorem true_notMem_flags_inherit (hnone : t.flags thread = []) :
    true ∉ (t.inherit creator thread).flags thread := by
  unfold inherit
  split
  · simp [flags]
  · simp [hnone]

end Flags

/-- A region takes no more threads than the limit leaves. -/
theorem busy_add_spareThreads_le (t : Teams) (requested : Option Nat) :
    t.busy + t.spareThreads requested ≤ max t.busy t.settings.threadLimit := by
  unfold spareThreads
  dsimp only
  repeat' split
  all_goals omega

/-- The books agree with the posts of the live threads, up to workers that were taken for a
region and are still to be made. -/
structure Staffed (limit promised : Nat) (regions : List Region) (posts : List Post) (t : Teams) : Prop where
  busy : t.busy = 1 + promised + posts.countP (·.worker)
  settings : t.settings.threadLimit = limit
  limited : t.busy ≤ max 1 limit
  levels : t.activeLevels = (posts.flatMap (·.joins)).countP (Region.isActive regions)
  threads : (posts.map (·.thread)).Nodup
  known : ∀ post ∈ posts, post.thread ≤ t.lastThread
  fresh : ∀ thread, t.lastThread < thread → t.flags thread = []
  /-- A thread is in the teams that it opened, and below them in at most its own. -/
  flags : ∀ post ∈ posts, ∃ base, true ∉ base ∧
    t.flags post.thread = post.joins.map (Region.isActive regions) ++ base
  opened : ∀ post ∈ posts, ∀ address ∈ post.joins,
    ∃ region ∈ regions, region.address = address ∧ region.thread = post.thread

theorem staffed_new (settings : TeamSettings) :
    (new settings).Staffed settings.threadLimit 0 [] [⟨0, [], false⟩] where
  busy := rfl
  settings := rfl
  limited := Nat.le_max_left _ _
  levels := rfl
  threads := by simp
  known := by simp [new]
  fresh thread _ := by simp [Teams.flags, new]
  flags := by
    intro post hpost
    cases mem_singleton.mp hpost
    exact ⟨[], by simp, by simp [Teams.flags, new]⟩
  opened := by
    intro post hpost
    cases mem_singleton.mp hpost
    simp

namespace Staffed

variable {t : Teams} {limit promised : Nat} {regions : List Region} {post : Post} {posts posts' : List Post}

/-- Neither the order of the posts nor the barriers nor what regions ask for matters. -/
theorem congr (ht : t.Staffed limit promised regions posts) (hperm : posts.Perm posts') {t' : Teams}
    (hteams : t' = { t with numThreads := t'.numThreads, barriers := t'.barriers }) :
    t'.Staffed limit promised regions posts' := by
  rw [hteams]
  exact { ht with
    busy := by rw [← hperm.countP_eq]; exact ht.busy
    levels := by rw [← (hperm.flatMap_right _).countP_eq]; exact ht.levels
    threads := (hperm.map _).nodup_iff.mp ht.threads
    known := fun post hpost => ht.known post (hperm.mem_iff.mpr hpost)
    flags := fun post hpost => ht.flags post (hperm.mem_iff.mpr hpost)
    opened := fun post hpost => ht.opened post (hperm.mem_iff.mpr hpost) }

/-- Other threads have other numbers. -/
theorem thread_ne (ht : t.Staffed limit promised regions (post :: posts)) {other : Post}
    (hother : other ∈ posts) : post.thread ≠ other.thread := by
  have hnodup := ht.threads
  rw [map_cons, nodup_cons] at hnodup
  intro heq
  exact hnodup.1 (heq ▸ mem_map_of_mem hother)

section Leaving

variable (ht : t.Staffed limit promised regions (post :: posts))

include ht

/-- A thread that no region made, and that has no region to join, may end. -/
theorem drop (hjoins : post.joins = []) (hworker : post.worker = false) : t.Staffed limit promised regions posts :=
  { ht with
    busy := by simpa [hworker] using ht.busy
    levels := by simpa [hjoins] using ht.levels
    threads := (nodup_cons.mp ht.threads).2
    known := (forall_mem_cons.mp ht.known).2
    flags := (forall_mem_cons.mp ht.flags).2
    opened := (forall_mem_cons.mp ht.opened).2 }

/-- A worker that has no region to join may end, and is taken off the books. -/
theorem retire (hjoins : post.joins = []) (hworker : post.worker = true) :
    (t.retire post.thread).Staffed limit promised regions posts := by
  have hbusy : t.busy = 1 + promised + posts.countP (·.worker) + 1 := by
    rw [ht.busy, countP_cons_of_pos hworker]
    rfl
  exact { ht with
    busy := by
      change max (t.busy - 1) 1 = _
      omega
    limited := by
      have hlimited := ht.limited
      change max (t.busy - 1) 1 ≤ max 1 limit
      omega
    levels := by
      change t.activeLevels = _
      simpa [hjoins] using ht.levels
    threads := (nodup_cons.mp ht.threads).2
    known := (forall_mem_cons.mp ht.known).2
    fresh := by
      intro thread hthread
      rw [flags_retire, ht.fresh thread hthread]
      split <;> rfl
    flags := by
      intro other hother
      rw [flags_retire, if_neg (ht.thread_ne hother)]
      exact ht.flags other (mem_cons_of_mem _ hother)
    opened := (forall_mem_cons.mp ht.opened).2 }

/-- A thread joins the innermost region that it opened. -/
theorem join {rest : List KontAddress} (hjoins : post.joins = address :: rest) :
    (t.leaveTeam post.thread).Staffed limit promised regions ({ post with joins := rest } :: posts) := by
  obtain ⟨base, hbase, hflags⟩ := ht.flags post mem_cons_self
  rw [hjoins, map_cons, cons_append] at hflags
  have hsettings : (t.leaveTeam post.thread).settings = t.settings := by unfold leaveTeam; split <;> rfl
  have hbusy : (t.leaveTeam post.thread).busy = t.busy := by unfold leaveTeam; split <;> rfl
  have hlast : (t.leaveTeam post.thread).lastThread = t.lastThread := by unfold leaveTeam; split <;> rfl
  exact {
    busy := by rw [hbusy]; exact ht.busy
    settings := by rw [hsettings]; exact ht.settings
    limited := by rw [hbusy]; exact ht.limited
    levels := by
      rw [activeLevels_leaveTeam t post.thread hflags, ht.levels]
      simp only [flatMap_cons, hjoins, cons_append, countP_cons]
      split <;> omega
    threads := ht.threads
    known := by rw [hlast]; exact forall_mem_cons.mpr (forall_mem_cons.mp ht.known)
    fresh := by
      intro thread hthread
      rw [hlast] at hthread
      rw [flags_leaveTeam, ht.fresh thread hthread]
      split <;> rfl
    flags := by
      refine forall_mem_cons.mpr ⟨⟨base, hbase, ?_⟩, fun other hother => ?_⟩
      · rw [flags_leaveTeam, if_pos rfl, hflags, tail_cons]
      · rw [flags_leaveTeam, if_neg (ht.thread_ne hother)]
        exact ht.flags other (mem_cons_of_mem _ hother)
    opened := by
      obtain ⟨hfirst, hothers⟩ := forall_mem_cons.mp ht.opened
      refine forall_mem_cons.mpr ⟨fun other hother => hfirst other ?_, hothers⟩
      rw [hjoins]
      exact mem_cons_of_mem _ hother }

end Leaving

section Entering

/-- A new thread has a number of its own. -/
theorem newThread_ne (ht : t.Staffed limit promised regions posts) {other : Post} (hother : other ∈ posts) :
    t.lastThread + 1 ≠ other.thread := Nat.ne_of_gt (Nat.lt_succ_of_le (ht.known other hother))

/-- A new thread comes onto the books, with a position that makes no region active. -/
theorem add (ht : t.Staffed limit promised regions posts) {left : Nat} {worker : Bool} {t' : Teams}
    (hpromised : promised = left + if worker then 1 else 0)
    (hbooks : t'.busy = t.busy ∧ t'.settings = t.settings ∧ t'.activeLevels = t.activeLevels)
    (hlast : t'.lastThread = t.lastThread + 1) (hown : true ∉ t'.flags (t.lastThread + 1))
    (hothers : ∀ thread, t.lastThread + 1 ≠ thread → t'.flags thread = t.flags thread) :
    t'.Staffed limit left regions (⟨t.lastThread + 1, [], worker⟩ :: posts) where
  busy := by
    rw [hbooks.1, ht.busy, hpromised, countP_cons]
    dsimp only
    omega
  settings := by rw [hbooks.2.1]; exact ht.settings
  limited := by rw [hbooks.1]; exact ht.limited
  levels := by rw [hbooks.2.2]; simpa using ht.levels
  threads := by
    refine nodup_cons.mpr ⟨fun hmem => ?_, ht.threads⟩
    obtain ⟨other, hother, heq⟩ := mem_map.mp hmem
    exact ht.newThread_ne hother heq.symm
  known := by
    rw [hlast]
    exact forall_mem_cons.mpr ⟨Nat.le_refl _, fun other hother => Nat.le_succ_of_le (ht.known other hother)⟩
  fresh := by
    intro thread hthread
    rw [hlast] at hthread
    rw [hothers thread (Nat.ne_of_lt hthread)]
    exact ht.fresh thread (Nat.lt_of_succ_lt hthread)
  flags := by
    refine forall_mem_cons.mpr ⟨⟨_, hown, rfl⟩, fun other hother => ?_⟩
    rw [hothers _ (ht.newThread_ne hother)]
    exact ht.flags other hother
  opened := forall_mem_cons.mpr ⟨by simp, ht.opened⟩

/-- A worker that was promised is made. -/
theorem hire (ht : t.Staffed limit (promised + 1) regions posts) {slot : TeamSlot} (hslot : slot.active = false) :
    (t.newThread.2.enterTeam t.newThread.1 slot).Staffed limit promised regions
      (⟨t.newThread.1, [], true⟩ :: posts) := by
  have hnone : t.newThread.2.flags t.newThread.1 = [] := ht.fresh _ (Nat.lt_succ_self _)
  refine ht.add rfl ⟨rfl, rfl, by simp [enterTeam, hslot, newThread]⟩ rfl ?_ fun thread hne => ?_
  · change true ∉ (t.newThread.2.enterTeam t.newThread.1 slot).flags t.newThread.1
    rw [flags_enterTeam, if_pos rfl, hnone, hslot]
    simp
  · exact (flags_enterTeam _ _ _ slot).trans (if_neg hne)

/-- A task of a loop is made, in the position of the thread that met the loop. -/
theorem delegate (ht : t.Staffed limit promised regions posts) (creator : ThreadId) :
    (t.newThread.2.inherit creator t.newThread.1).Staffed limit promised regions
      (⟨t.newThread.1, [], false⟩ :: posts) := by
  have hnone : t.newThread.2.flags t.newThread.1 = [] := ht.fresh _ (Nat.lt_succ_self _)
  refine ht.add rfl ?_ ?_ (true_notMem_flags_inherit _ _ hnone) fun thread hne => ?_
  · unfold inherit
    split <;> exact ⟨rfl, rfl, rfl⟩
  · unfold inherit
    split <;> rfl
  · exact flags_inherit_of_ne _ _ _ hne

/-- Addresses of regions that were opened before say what they said. -/
theorem isActive_cons (ht : t.Staffed limit promised regions posts) {region : Region}
    (haddress : ∀ other ∈ regions, other.address ≠ region.address) :
    ∀ post ∈ posts, ∀ address ∈ post.joins,
      Region.isActive (region :: regions) address = Region.isActive regions address := by
  intro post hpost address hjoin
  obtain ⟨other, hother, rfl, -⟩ := ht.opened post hpost address hjoin
  simp [Region.isActive, (haddress other hother).symm]

/-- A thread opens a region and takes the threads for it. -/
theorem openRegion (ht : t.Staffed limit 0 regions (post :: posts)) (requested : Option Nat)
    (haddress : ∀ region ∈ regions, region.address ≠ address) :
    ((t.takeThreads requested).2.enterTeam post.thread
        ⟨0, t.spareThreads requested + 1, 0 < t.spareThreads requested⟩).Staffed limit
      (t.spareThreads requested) (⟨post.thread, address, t.spareThreads requested⟩ :: regions)
      ({ post with joins := address :: post.joins } :: posts) := by
  generalize hspare : t.spareThreads requested = spare
  let region : Region := ⟨post.thread, address, spare⟩
  have hold : ∀ other ∈ post :: posts, ∀ joined ∈ other.joins,
      Region.isActive (region :: regions) joined = Region.isActive regions joined :=
    ht.isActive_cons haddress
  have hnew : Region.isActive (region :: regions) address = decide (0 < spare) := by
    have hothers : Region.isActive regions address = false := by
      simp only [Region.isActive, any_eq_false, decide_eq_true_eq, not_and]
      exact fun other hother heq => absurd heq (haddress other hother)
    change (decide (address = address ∧ 0 < spare) || Region.isActive regions address) = _
    simp [hothers]
  obtain ⟨hfirst, hothers⟩ := forall_mem_cons.mp hold
  have hflags other : ((t.takeThreads requested).2.enterTeam post.thread
      ⟨0, spare + 1, 0 < spare⟩).flags other =
        if post.thread = other then decide (0 < spare) :: t.flags other else t.flags other :=
    flags_enterTeam (t.takeThreads requested).2 post.thread other _
  exact { ht with
    busy := by
      change t.busy + t.spareThreads requested = _
      rw [ht.busy, hspare, countP_cons, countP_cons]
      dsimp only
      omega
    limited := by
      have hlimited := ht.limited
      have hspares := t.busy_add_spareThreads_le requested
      rw [ht.settings] at hspares
      change t.busy + t.spareThreads requested ≤ max 1 limit
      omega
    levels := by
      have hcount : ((post :: posts).flatMap (·.joins)).countP (Region.isActive (region :: regions)) =
          t.activeLevels := by
        rw [ht.levels]
        refine countP_congr fun a ha => ?_
        obtain ⟨other, hother, ha⟩ := mem_flatMap.mp ha
        rw [hold other hother a ha]
      change (if decide (0 < spare) then t.activeLevels + 1 else t.activeLevels) =
        (address :: (post :: posts).flatMap (·.joins)).countP (Region.isActive (region :: regions))
      rw [countP_cons, hcount, hnew]
      split <;> rfl
    known := forall_mem_cons.mpr (forall_mem_cons.mp ht.known)
    fresh := by
      intro thread hthread
      have hne : post.thread ≠ thread :=
        Nat.ne_of_lt (Nat.lt_of_le_of_lt (ht.known post mem_cons_self) hthread)
      rw [hflags, if_neg hne]
      exact ht.fresh thread hthread
    flags := by
      obtain ⟨base, hbase, hown⟩ := ht.flags post mem_cons_self
      refine forall_mem_cons.mpr ⟨⟨base, hbase, ?_⟩, fun other hother => ?_⟩
      · rw [hflags, if_pos rfl, hown, map_cons, hnew, map_congr_left hfirst]
        rfl
      · obtain ⟨base, hbase, hown⟩ := ht.flags other (mem_cons_of_mem _ hother)
        refine ⟨base, hbase, ?_⟩
        rw [hflags, if_neg (ht.thread_ne hother), hown, map_congr_left (hothers other hother)]
    opened := by
      obtain ⟨hown, hopened⟩ := forall_mem_cons.mp ht.opened
      refine forall_mem_cons.mpr ⟨forall_mem_cons.mpr ⟨?_, fun a ha => ?_⟩, fun other hother a ha => ?_⟩
      · exact ⟨region, mem_cons_self, rfl, rfl⟩
      · obtain ⟨found, hfound, heq⟩ := hown a ha
        exact ⟨found, mem_cons_of_mem _ hfound, heq⟩
      · obtain ⟨found, hfound, heq⟩ := hopened other hother a ha
        exact ⟨found, mem_cons_of_mem _ hfound, heq⟩ }

end Entering

section Levels

variable (ht : t.Staffed limit promised regions posts) (haddresses : (regions.map (·.address)).Nodup)
include ht haddresses

/-- The region that is left at an address was opened by the thread that is to leave it. -/
theorem thread_eq {region : Region} (hregion : region ∈ regions) (hpost : post ∈ posts)
    (hjoin : region.address ∈ post.joins) : region.thread = post.thread := by
  obtain ⟨other, hother, hsame, hthread⟩ := ht.opened post hpost _ hjoin
  rw [← inj_on_of_nodup_map haddresses hother hregion hsame, hthread]

theorem nodup_flatMap_joins (hjoins : ∀ post ∈ posts, post.joins.Nodup) :
    (posts.flatMap (·.joins)).Nodup := by
  refine nodup_flatMap.mpr ⟨hjoins, ?_⟩
  have hthreads : posts.Pairwise fun a b => a.thread ≠ b.thread := pairwise_map.mp ht.threads
  refine hthreads.imp_of_mem fun {a b} ha hb hne => ?_
  intro address hfirst hsecond
  obtain ⟨region, hregion, rfl, hthread⟩ := ht.opened a ha address hfirst
  exact hne (hthread.symm.trans (ht.thread_eq haddresses hregion hb hsecond))

/-- The count of active levels is that of the regions that obtained a worker and that are still
to be left by the thread that opened them. -/
theorem activeLevels_eq (hjoins : ∀ post ∈ posts, post.joins.Nodup) :
    t.activeLevels = regions.countP fun region =>
      0 < region.workers ∧ ∃ post ∈ posts, post.thread = region.thread ∧ region.address ∈ post.joins := by
  rw [ht.levels, countP_eq_length_filter, countP_eq_length_filter,
    ← length_map (f := Region.address)]
  apply Perm.length_eq
  refine (perm_ext_iff_of_nodup ?_ ?_).mpr fun address => ?_
  · exact (ht.nodup_flatMap_joins haddresses hjoins).filter _
  · exact haddresses.sublist (Sublist.map _ filter_sublist)
  · simp only [mem_filter, mem_flatMap, Region.isActive, any_eq_true, decide_eq_true_eq, mem_map]
    constructor
    · rintro ⟨⟨post, hpost, hjoin⟩, region, hregion, rfl, hworkers⟩
      have hthread := ht.thread_eq haddresses hregion hpost hjoin
      exact ⟨region, ⟨hregion, hworkers, post, hpost, hthread.symm, hjoin⟩, rfl⟩
    · rintro ⟨region, ⟨hregion, hworkers, post, hpost, -, hjoin⟩, rfl⟩
      exact ⟨⟨post, hpost, hjoin⟩, region, hregion, rfl, hworkers⟩

end Levels

end Staffed

/-! ## Numbers in a team -/

/-- Since `before` the threads entered a team of a size, numbered in their order, and no other
position changed. The first of them makes the region active if it is not alone. -/
def Numbered (t : Teams) (size : Nat) (threads : List ThreadId) (before : Teams) : Prop :=
  ∀ thread, t.slots.getD thread [] =
    if thread ∈ threads then
      ⟨threads.idxOf thread, size, threads.idxOf thread = 0 ∧ 1 < size⟩ :: before.slots.getD thread []
    else before.slots.getD thread []

section Numbered

variable {size : Nat} {threads : List ThreadId} {before t : Teams}

theorem numbered_enterTeam (t : Teams) (thread : ThreadId) {slot : TeamSlot}
    (hslot : slot = ⟨0, size, 1 < size⟩) : (t.enterTeam thread slot).Numbered size [thread] t := by
  intro other
  simp only [enterTeam, TreeMap.getD_insert, Std.compare_eq_iff_eq, mem_singleton]
  by_cases heq : thread = other
  · simp [heq, hslot]
  · rw [if_neg heq, if_neg (Ne.symm heq)]

theorem Numbered.congr (ht : t.Numbered size threads before) {t' before' : Teams}
    (hslots : t'.slots = t.slots) (hbefore : before'.slots = before.slots) :
    t'.Numbered size threads before' := by
  intro thread
  rw [hslots, hbefore]
  exact ht thread

theorem Numbered.enterTeam (ht : t.Numbered size threads before) (hsome : threads ≠ [])
    {thread : ThreadId} (hnew : thread ∉ threads) :
    (t.enterTeam thread ⟨threads.length, size, false⟩).Numbered size (threads ++ [thread]) before := by
  intro other
  simp only [Teams.enterTeam, TreeMap.getD_insert, Std.compare_eq_iff_eq, mem_append, mem_singleton]
  by_cases heq : thread = other
  · subst heq
    have hplace : (threads ++ [thread]).idxOf thread = threads.length := by
      rw [idxOf_append_of_notMem hnew]
      simp
    rw [if_pos rfl, if_pos (.inr rfl), ht thread, if_neg hnew, hplace]
    simp [hsome]
  · rw [if_neg heq, ht other]
    by_cases hmem : other ∈ threads
    · rw [if_pos hmem, if_pos (.inl hmem), idxOf_append_of_mem hmem]
    · rw [if_neg hmem, if_neg (by simpa [hmem] using Ne.symm heq)]

end Numbered

end Teams

end CoreC
