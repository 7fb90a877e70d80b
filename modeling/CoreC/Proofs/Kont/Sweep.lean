import CoreC.Proofs.Kont.ActiveChain
import Mathlib.Algebra.GroupWithZero.Nat

/-! # Sweeping continuations

A sweep marks what the roots lead to and drops the rest. The marking takes every address off
its stack once, and puts the parents of an address on it once, so it does not stop early. What
is kept holds every root and, with an address, all that it leads to.
-/

namespace CoreC.KontTable

open List Std Option

variable {t t' : KontTable} {address : KontAddress} {roots : List KontAddress}

/-- The address ends a task, or something is stored there. -/
def Holds (t : KontTable) (address : KontAddress) : Prop :=
  address = halt ∨ ∃ konts, t.slots[address]? = some konts

/-- Whatever is stored leads to an address that is held. -/
def Closed (t : KontTable) : Prop :=
  ∀ (address : KontAddress) konts, t.slots[address]? = some konts →
    ∀ kont ∈ konts, t.Holds kont.parent

theorem Holds.within (hholds : t.Holds address) (hwithin : t.Within t') : t'.Holds address := by
  rcases hholds with hhalt | ⟨konts, hslot⟩
  · exact .inl hhalt
  · exact .inr ⟨konts, hwithin address konts hslot⟩

theorem Holds.write (hholds : t.Holds address) (other : KontAddress) (kont : Continuation) :
    (t.write other kont false).Holds address := by
  rcases hholds with hhalt | ⟨konts, hslot⟩
  · exact .inl hhalt
  · refine .inr ?_
    rw [getElem?_write]
    split
    · exact ⟨_, rfl⟩
    · exact ⟨konts, hslot⟩

theorem holds_written (t : KontTable) (address : KontAddress) (kont : Continuation) :
    (t.write address kont false).Holds address :=
  .inr ⟨[kont], by rw [getElem?_write, if_pos rfl]⟩

theorem Closed.write (hclosed : t.Closed) {kont : Continuation} (hparent : t.Holds kont.parent)
    (address : KontAddress) : (t.write address kont false).Closed := by
  intro other konts hslot stored hstored
  rw [getElem?_write] at hslot
  split at hslot
  · cases hslot
    cases mem_singleton.mp hstored
    exact hparent.write address kont
  · exact (hclosed other konts hslot stored hstored).write address kont

theorem Within.write_both (hwithin : t'.Within t) (address : KontAddress) (kont : Continuation) :
    (t'.write address kont false).Within (t.write address kont false) := by
  intro other konts hslot
  rw [getElem?_write] at hslot ⊢
  split at hslot
  next heq => rw [if_pos heq, hslot]
  next hne => rw [if_neg hne, hwithin other konts hslot]

/-- An address that is held lies below the next one. -/
theorem Holds.lt {next : KontAddress} (hholds : t.Holds address) (hlinked : t.Linked next)
    (hpositive : halt < next) : address < next := by
  rcases hholds with rfl | ⟨konts, hslot⟩
  · exact hpositive
  · obtain ⟨-, -, -, hbelow⟩ := hlinked.slot hslot
    exact hbelow

/-! ## Marking -/

/-- How many continuations an entry adds to the work, if its address is still to be marked. -/
def workOf (live : TreeSet KontAddress) (entry : KontAddress × List Continuation) : Nat :=
  if live.contains entry.1 then 0 else entry.2.length

/-- Continuations at addresses that are still to be marked. -/
def workLeft (t : KontTable) (live : TreeSet KontAddress) : Nat :=
  (t.slots.toList.map (workOf live)).sum

theorem workOf_insert_le (live : TreeSet KontAddress) (address : KontAddress)
    (entry : KontAddress × List Continuation) : workOf (live.insert address) entry ≤ workOf live entry := by
  unfold workOf
  rw [TreeSet.contains_insert]
  cases hlive : live.contains entry.1 with
  | true => simp
  | false => split <;> simp

theorem sum_workOf_insert_le (live : TreeSet KontAddress) (address : KontAddress)
    (entries : List (KontAddress × List Continuation)) :
    (entries.map (workOf (live.insert address))).sum ≤ (entries.map (workOf live)).sum := by
  induction entries with
  | nil => exact Nat.le_refl 0
  | cons entry rest ih =>
    rw [map_cons, map_cons, sum_cons, sum_cons]
    exact Nat.add_le_add (workOf_insert_le live address entry) ih

/-- Marking an address takes its continuations off the work. -/
theorem length_add_workLeft_insert_le {live : TreeSet KontAddress}
    (hnew : live.contains address = false) :
    (t.slots.getD address []).length + t.workLeft (live.insert address) ≤ t.workLeft live := by
  rw [TreeMap.getD_eq_getD_getElem?]
  cases hslot : t.slots[address]? with
  | none =>
    rw [getD_none, length_nil, Nat.zero_add]
    exact sum_workOf_insert_le live address _
  | some konts =>
    obtain ⟨before, after, hentries⟩ :=
      append_of_mem (TreeMap.mem_toList_iff_getElem?_eq_some.mpr hslot)
    have hbefore := sum_workOf_insert_le live address before
    have hafter := sum_workOf_insert_le live address after
    have hold : workOf live (address, konts) = konts.length := by simp [workOf, hnew]
    have hmarked : workOf (live.insert address) (address, konts) = 0 := by
      simp [workOf, TreeSet.contains_insert]
    simp only [workLeft, hentries, map_append, map_cons, sum_append, sum_cons,
      getD_some, hold, hmarked]
    omega

theorem workLeft_empty (t : KontTable) :
    t.workLeft ∅ = t.slots.foldl (fun total _ konts => total + konts.length) 0 := by
  have hsum (entries : List (KontAddress × List Continuation)) (total : Nat) :
      entries.foldl (fun total entry => total + entry.2.length) total =
        total + (entries.map (workOf ∅)).sum := by
    induction entries generalizing total with
    | nil => rfl
    | cons entry rest ih => simp [ih, workOf, Nat.add_assoc]
  rw [TreeMap.foldl_eq_foldl_toList, hsum, Nat.zero_add, workLeft]

/-- Marking takes an address off the stack and, unless it was marked or ends a task, puts its
parents there. There is no bound on the steps: marking that never ends relates to nothing. -/
inductive Marking (t : KontTable) :
    List KontAddress → TreeSet KontAddress → TreeSet KontAddress → Prop where
  | done {live : TreeSet KontAddress} : Marking t [] live live
  | skip {address : KontAddress} {rest : List KontAddress} {live out : TreeSet KontAddress}
      (hold : address = halt ∨ live.contains address) (hrest : Marking t rest live out) :
      Marking t (address :: rest) live out
  | take {address : KontAddress} {rest : List KontAddress} {live out : TreeSet KontAddress}
      (hnew : ¬(address = halt ∨ live.contains address))
      (hmore : Marking t ((t.slots.getD address []).map (·.parent) ++ rest) (live.insert address) out) :
      Marking t (address :: rest) live out

/-- The fuel bounds the stack and the work left together, and one of them shrinks at each step. -/
theorem marking_mark (t : KontTable) (fuel : Nat) (stack : List KontAddress)
    (live : TreeSet KontAddress) (hfuel : stack.length + t.workLeft live ≤ fuel) :
    t.Marking stack live (t.mark fuel stack live) := by
  induction fuel generalizing stack live with
  | zero =>
    cases stack with
    | nil => exact .done
    | cons address rest => simp at hfuel
  | succ fuel ih =>
    cases stack with
    | nil => exact .done
    | cons address rest =>
      rw [length_cons] at hfuel
      rw [mark]
      split
      next hold => exact .skip hold (ih rest live (by omega))
      next hnew =>
        have hwork := length_add_workLeft_insert_le (t := t) (Bool.eq_false_iff.mpr (not_or.mp hnew).2)
        refine .take hnew (ih _ _ ?_)
        rw [length_append, length_map]
        omega

theorem marking_live (t : KontTable) (roots : List KontAddress) : t.Marking roots ∅ (t.live roots) :=
  t.marking_mark _ roots ∅ (Nat.le_of_eq (by rw [workLeft_empty]))

/-- Some root leads to the address through the parents of what is stored. The halt address leads
nowhere. -/
inductive Reached (t : KontTable) (roots : List KontAddress) : KontAddress → Prop where
  | root {address : KontAddress} (hroot : address ∈ roots) : Reached t roots address
  | parent {address : KontAddress} {kont : Continuation} (haddress : Reached t roots address)
      (hhalt : address ≠ halt) (hkont : kont ∈ t.slots.getD address []) : Reached t roots kont.parent

variable {stack : List KontAddress} {live out : TreeSet KontAddress}

/-- What marking leaves: what was marked before and what was on the stack, and for every
address that was marked since, the parents. -/
structure Marks (t : KontTable) (stack : List KontAddress) (live out : TreeSet KontAddress) : Prop where
  before : ∀ address ∈ live, address ∈ out
  stacked : ∀ address ∈ stack, address = halt ∨ address ∈ out
  parents : ∀ address ∈ out, address ∉ live → ∀ kont ∈ t.slots.getD address [],
    kont.parent = halt ∨ kont.parent ∈ out

theorem Marking.marks (hmarking : t.Marking stack live out) : t.Marks stack live out := by
  induction hmarking with
  | done => exact ⟨fun _ h => h, by simp, fun _ h hnew => absurd h hnew⟩
  | skip hold _ ih =>
    refine ⟨ih.before, forall_mem_cons.mpr ⟨?_, ih.stacked⟩, ih.parents⟩
    exact hold.imp_right (ih.before _)
  | @take address rest live out _ _ ih =>
    obtain ⟨hparents, hrest⟩ := forall_mem_append.mp ih.stacked
    have hmarked : address ∈ out := ih.before address (TreeSet.mem_insert.mpr (.inl ReflCmp.compare_self))
    refine ⟨fun other hother => ih.before other (TreeSet.mem_insert.mpr (.inr hother)),
      forall_mem_cons.mpr ⟨.inr hmarked, hrest⟩, fun other hother hlive => ?_⟩
    by_cases hsame : address = other
    · subst hsame
      exact fun kont hkont => hparents kont.parent (mem_map_of_mem hkont)
    · refine ih.parents other hother fun hinserted => ?_
      exact (TreeSet.mem_insert.mp hinserted).elim (fun heq => hsame (LawfulEqCmp.eq_of_compare heq)) hlive

theorem marks_live (t : KontTable) (roots : List KontAddress) : t.Marks roots ∅ (t.live roots) :=
  (t.marking_live roots).marks

/-- Nothing is marked but what the roots lead to. -/
theorem Marking.reached (hmarking : t.Marking stack live out) (hstack : ∀ address ∈ stack, t.Reached roots address)
    (hlive : ∀ address ∈ live, address ≠ halt ∧ t.Reached roots address) :
    ∀ address ∈ out, address ≠ halt ∧ t.Reached roots address := by
  induction hmarking with
  | done => exact hlive
  | skip _ _ ih => exact ih (forall_mem_cons.mp hstack).2 hlive
  | @take address _ _ _ hnew _ ih =>
    obtain ⟨haddress, hrest⟩ := forall_mem_cons.mp hstack
    have hhalt : address ≠ halt := (not_or.mp hnew).1
    refine ih (forall_mem_append.mpr ⟨forall_mem_map.mpr fun kont hkont => ?_, hrest⟩)
      fun other hother => ?_
    · exact .parent haddress hhalt hkont
    · rcases TreeSet.mem_insert.mp hother with heq | hbefore
      · cases LawfulEqCmp.eq_of_compare heq
        exact ⟨hhalt, haddress⟩
      · exact hlive other hbefore

theorem mem_live_iff : address ∈ t.live roots ↔ address ≠ halt ∧ t.Reached roots address := by
  have hmarks := t.marks_live roots
  constructor
  · exact (t.marking_live roots).reached (fun _ => .root) (by simp) address
  · rintro ⟨hhalt, hreached⟩
    have hmarked : address = halt ∨ address ∈ t.live roots := by
      clear hhalt
      induction hreached with
      | root hroot => exact hmarks.stacked _ hroot
      | parent _ hhalt hkont ih => exact hmarks.parents _ (ih.resolve_left hhalt) (by simp) _ hkont
    exact hmarked.resolve_left hhalt

/-! ## Sweeping -/

theorem getElem?_sweep (t : KontTable) (roots : List KontAddress) (address : KontAddress) :
    (t.sweep roots).slots[address]? = t.slots[address]?.filter fun _ => (t.live roots).contains address :=
  TreeMap.getElem?_filter'

theorem sweep_within (t : KontTable) (roots : List KontAddress) : (t.sweep roots).Within t := by
  intro address konts hslot
  rw [getElem?_sweep] at hslot
  exact (filter_eq_some_iff.mp hslot).1

/-- What is marked and held stays held. -/
theorem Holds.sweep (hholds : t.Holds address) (hlive : address = halt ∨ address ∈ t.live roots) :
    (t.sweep roots).Holds address := by
  rcases hlive with hhalt | hlive
  · exact .inl hhalt
  · refine hholds.imp_right ?_
    rintro ⟨konts, hslot⟩
    refine ⟨konts, ?_⟩
    rw [getElem?_sweep, hslot]
    exact filter_eq_some_iff.mpr ⟨rfl, hlive⟩

theorem Closed.sweep (hclosed : t.Closed) (roots : List KontAddress) : (t.sweep roots).Closed := by
  intro address konts hslot kont hkont
  rw [getElem?_sweep] at hslot
  obtain ⟨hslot, hlive⟩ := filter_eq_some_iff.mp hslot
  refine (hclosed address konts hslot kont hkont).sweep ?_
  refine (t.marks_live roots).parents address hlive (by simp) kont ?_
  rw [TreeMap.getD_eq_getD_getElem?, hslot]
  exact hkont

/-- **Sweeping is exact.** Marking ends, whatever is stored and wherever its parents lead. A sweep
keeps what is stored at every address that some root leads to, the halt address aside, drops what
is stored elsewhere, and tells how many addresses it dropped. -/
theorem sweep_exact (t : KontTable) (roots : List KontAddress) : t.Marking roots ∅ (t.live roots) ∧
    (∀ address, address ≠ halt → t.Reached roots address →
      (t.sweep roots).slots[address]? = t.slots[address]?) ∧
    (∀ address, address = halt ∨ ¬t.Reached roots address → (t.sweep roots).slots[address]? = none) ∧
    t.dropped roots = t.slots.keys.countP fun address => !(t.sweep roots).slots.contains address := by
  refine ⟨t.marking_live roots, fun address hhalt hreached => ?_, fun address hdropped => ?_, ?_⟩
  · have hlive : (t.live roots).contains address = true := mem_live_iff.mpr ⟨hhalt, hreached⟩
    rw [getElem?_sweep, hlive]
    cases t.slots[address]? <;> rfl
  · have hlive : ¬(t.live roots).contains address = true := fun hlive =>
      have ⟨hhalt, hreached⟩ := mem_live_iff.mp hlive
      hdropped.elim hhalt (absurd hreached)
    simp [getElem?_sweep, hlive]
  · have hkept : (t.sweep roots).size = t.slots.keys.countP (t.live roots).contains := by
      rw [size, ← TreeMap.length_keys, sweep, TreeMap.keys_filter_key, countP_eq_length_filter]
    have hsame : t.slots.keys.countP (fun address => !(t.sweep roots).slots.contains address) =
        t.slots.keys.countP fun address => decide ¬(t.live roots).contains address = true := by
      refine countP_congr fun address haddress => ?_
      obtain ⟨konts, hslot⟩ := isSome_iff_exists.mp
        (TreeMap.mem_iff_isSome_getElem?.mp (TreeMap.mem_keys.mp haddress))
      rw [TreeMap.contains_eq_isSome_getElem?, getElem?_sweep, hslot]
      cases (t.live roots).contains address <;> simp
    have hall := length_eq_countP_add_countP (t.live roots).contains (l := t.slots.keys)
    rw [TreeMap.length_keys] at hall
    rw [dropped, hkept, hsame, size]
    omega

/-! ## Returns -/

/-- How many addresses up to the given one are in use. -/
def below (t : KontTable) (address : KontAddress) : Nat := t.slots.keys.countP (· ≤ address)

theorem below_le_size (t : KontTable) (address : KontAddress) : t.below address ≤ t.size :=
  Nat.le_trans countP_le_length (Nat.le_of_eq TreeMap.length_keys)

/-- The way up to an earlier address passes fewer addresses. -/
theorem below_lt {parent : KontAddress} {konts : List Continuation}
    (hslot : t.slots[address]? = some konts) (hparent : parent < address) :
    t.below parent < t.below address := by
  have hmem : address ∈ t.slots.keys :=
    TreeMap.mem_keys.mpr (TreeMap.mem_iff_isSome_getElem?.mpr (by rw [hslot]; rfl))
  obtain ⟨before, after, hkeys⟩ := append_of_mem hmem
  have hless (keys : List KontAddress) : keys.countP (· ≤ parent) ≤ keys.countP (· ≤ address) := by
    refine countP_mono_left fun key _ hkey => ?_
    rw [decide_eq_true_eq] at hkey ⊢
    exact Nat.le_trans hkey (Nat.le_of_lt hparent)
  have hbefore := hless before
  have hafter := hless after
  simp only [below, hkeys, countP_append, countP_cons, decide_eq_true_eq, Nat.le_refl,
    ↓reduceIte, Nat.not_le_of_lt hparent]
  omega

end CoreC.KontTable
