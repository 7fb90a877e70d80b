import CoreC.Proofs.Machine.Accounting
import Mathlib.Data.List.Nodup

/-! # Continuations that share an address

An address is given to a key, and to all continuations that have this key. The key names the thread
and the point where it resumes, so that no thread resumes for another.
-/

namespace CoreC

open Std.TreeMap Option KontAllocator

theorem ReleaseMode.code_inj {mode other : ReleaseMode} : mode.code = other.code ↔ mode = other := by
  cases mode <;> cases other <;> simp [code]

/-- The numbers of a key tell the key. -/
theorem KontKey.code_injective : Function.Injective code := by
  rintro ⟨control, frame, kind, release, thread⟩ ⟨control', frame', kind', release', thread'⟩ hcode
  have hframe : frame.elim 0 (· + 1) = frame'.elim 0 (· + 1) → frame = frame' := by
    cases frame <;> cases frame' <;> simp
  cases control <;> cases control' <;> rcases release with _ | ⟨_, _⟩ <;> rcases release' with _ | ⟨_, _⟩ <;>
    simp_all [code, controlCode, releaseCode, Barrier.code_inj, ReleaseMode.code_inj]

/-- A continuation that a thread pushed, and the address that it was given. -/
structure Push where
  kont : Continuation
  thread : ThreadId
  address : KontAddress

/-- The two were pushed by one thread, and agree in where they resume, in kind, and in the barrier
and the mode if they leave one; under `p4f` in the frame as well. -/
structure Push.Alike (policy : KontPolicy) (push other : Push) : Prop where
  thread : push.thread = other.thread
  control : push.kont.control = other.kont.control
  kind : push.kont.kind.code = other.kont.kind.code
  release : ∀ barrier mode, push.kont.kind = .release barrier mode ↔ other.kont.kind = .release barrier mode
  frame : policy = .p4f → push.kont.frame = other.kont.frame

namespace KontAllocator

variable {a : KontAllocator} {kont : Continuation} {thread : ThreadId}

theorem key?_eq_none_iff : a.key? kont thread = none ↔ a.policy = .concrete := by
  unfold key?
  cases a.policy <;> simp

/-- Continuations of one key are alike. -/
theorem alike_of_key? {push other : Push} {key : KontKey} (hkey : a.key? push.kont push.thread = some key)
    (hother : a.key? other.kont other.thread = some key) : push.Alike a.policy other := by
  have hsame := hkey.trans hother.symm
  unfold key? at hsame
  obtain ⟨⟨kind, control, frame, parent⟩, thread, address⟩ := push
  obtain ⟨⟨kind', control', frame', parent'⟩, thread', address'⟩ := other
  cases hpolicy : a.policy with
  | concrete => simp [key?, hpolicy] at hkey
  | zeroCfa | p4f =>
    simp only [hpolicy, some.injEq, KontKey.mk.injEq] at hsame
    obtain ⟨rfl, hframe, hkind, hrelease, rfl⟩ := hsame
    refine ⟨rfl, rfl, hkind, fun barrier mode => ?_, fun _ => by simp_all⟩
    cases kind <;> cases kind' <;> simp_all

/-- An address is one that the key was given before, or it is new and given to the key. -/
theorem allocate_cases (a : KontAllocator) (kont : Continuation) (thread : ThreadId) :
    (∃ address, (∃ code, (a.key? kont thread).map KontKey.code = some code ∧ a.byKey[code]? = some address) ∧
      a.allocate kont thread = (address, a)) ∨
    ∃ byKey, a.allocate kont thread = (a.next, { a with next := a.next + 1, byKey }) ∧
      ∀ code, if (a.key? kont thread).map KontKey.code = some code
        then a.byKey[code]? = none ∧ byKey[code]? = some a.next else byKey[code]? = a.byKey[code]? := by
  unfold allocate
  cases hkey : a.key? kont thread with
  | none => exact .inr ⟨a.byKey, rfl, by simp⟩
  | some key =>
    cases hfound : a.byKey[key.code]? with
    | some address => exact .inl ⟨address, ⟨_, rfl, hfound⟩, by simp [hfound]⟩
    | none =>
      refine .inr ⟨a.byKey.insert key.code a.next, by simp [hfound], fun code => ?_⟩
      by_cases hcode : key.code = code
      · simp [← hcode, hfound]
      · simp [hcode, getElem?_insert]

end KontAllocator

namespace Machine

variable {ι φ : Type} {policy : KontPolicy} {history : List Push} {m m' : Machine ι φ} {kont : Continuation}
  {thread : ThreadId} {address : KontAddress}

/-- Threads push continuations, one after the other. -/
def pushAll : List (Continuation × ThreadId) → MachineM ι φ (List Push)
  | [] => return []
  | (kont, thread) :: rest => do
      let address ← pushKont kont thread
      return ⟨kont, thread, address⟩ :: (← pushAll rest)

/-- The continuations that were pushed are stored where they were pushed, and no others. -/
structure Stored (policy : KontPolicy) (history : List Push) (t : KontTable) : Prop where
  held : ∀ {address : KontAddress} {konts}, t.slots[address]? = some konts → konts.Nodup ∧
    ∀ kont ∈ konts, ∃ push ∈ history, push.address = address ∧ push.kont = kont
  kept : ∀ push ∈ history, ∃ konts, t.slots[push.address]? = some konts ∧ push.kont ∈ konts
  alone : policy = .concrete → (history.map (·.address)).Nodup ∧
    ∀ push ∈ history, t.slots[push.address]? = some [push.kont]

theorem Stored.write {t : KontTable} (ht : Stored policy history t)
    (hnew : policy = .concrete → ∀ push ∈ history, push.address ≠ address) :
    Stored policy (⟨kont, thread, address⟩ :: history) (t.write address kont (policy != .concrete)) := by
  -- What stays at the address is all that was pushed there.
  obtain ⟨held, hslots, hnodup, hold, hconcrete⟩ : ∃ held,
      (∀ other, (t.write address kont (policy != .concrete)).slots[other]? = if address = other then
        some (if kont ∈ held then held else held ++ [kont]) else t.slots[other]?) ∧ held.Nodup ∧
      (∀ kont, kont ∈ held ↔ ∃ push ∈ history, push.address = address ∧ push.kont = kont) ∧
      (policy = .concrete → held = []) := by
    refine ⟨if policy != .concrete then t.slots.getD address [] else [],
      by simp [KontTable.write, getElem?_insert], ?_⟩
    by_cases hpolicy : policy = .concrete
    · have hnone := hnew hpolicy
      simp_all
    · have hkept := ht.kept
      cases hslot : t.slots[address]? with
      | none => simp_all [getD_eq_getD_getElem?]; grind
      | some konts =>
        obtain ⟨hnodup, hfrom⟩ := ht.held hslot
        simp_all [getD_eq_getD_getElem?]; grind
  refine ⟨fun {other konts} hslot => ?_, List.forall_mem_cons.mpr ⟨?_, fun push hpush => ?_⟩, fun hpolicy => ?_⟩
  · rw [hslots] at hslot
    simp only [List.mem_cons, exists_eq_or_imp]
    split at hslot
    next hother =>
      subst hother
      cases hslot
      grind
    next =>
      obtain ⟨hkonts, hfrom⟩ := ht.held hslot
      exact ⟨hkonts, fun kont hkont => .inr (hfrom kont hkont)⟩
  · exact ⟨_, (hslots address).trans (if_pos rfl), by grind⟩
  · have hkept := ht.kept push hpush
    rw [hslots]
    grind
  · obtain ⟨haddresses, halone⟩ := ht.alone hpolicy
    simp only [hslots, hconcrete hpolicy]
    grind

/-- What the allocator knows of the continuations pushed so far. -/
structure Filed (policy : KontPolicy) (history : List Push) (m : Machine ι φ) : Prop where
  setting : m.allocator.policy = policy
  next : halt < m.allocator.next
  below : ∀ push ∈ history, halt < push.address ∧ push.address < m.allocator.next
  keyed : ∀ code address, m.allocator.byKey[code]? = some address ↔ ∃ push ∈ history,
    push.address = address ∧ (m.allocator.key? push.kont push.thread).map KontKey.code = some code
  same : ∀ push ∈ history, ∀ other ∈ history, push.address = other.address →
    m.allocator.key? push.kont push.thread = m.allocator.key? other.kont other.thread
  stored : Stored policy history m.konts

theorem Filed.push (hm : Filed policy history m) (hrun : pushKont kont thread m = .ok address m') :
    Filed policy (⟨kont, thread, address⟩ :: history) m' := by
  unfold pushKont at hrun
  have hmerges : m.allocator.merges = (policy != .concrete) := by rw [merges, hm.setting]
  have hsame {address} (hhere : ∀ other ∈ history, other.address = address →
      m.allocator.key? other.kont other.thread = m.allocator.key? kont thread) :
      ∀ push ∈ (⟨kont, thread, address⟩ :: history : List Push), ∀ other ∈ (⟨kont, thread, address⟩ :: history :
        List Push), push.address = other.address →
          m.allocator.key? push.kont push.thread = m.allocator.key? other.kont other.thread := by
    have hbefore := hm.same
    simp only [List.mem_cons, forall_eq_or_imp]
    grind
  rcases m.allocator.allocate_cases kont thread with
    ⟨given, ⟨code, hcode, hgiven⟩, heq⟩ | ⟨byKey, heq, hbyKey⟩ <;> rw [heq] at hrun <;> cases hrun
  · obtain ⟨twin, htwin, rfl, htwinCode⟩ := (hm.keyed _ _).mp hgiven
    have hkey : m.allocator.key? twin.kont twin.thread = m.allocator.key? kont thread :=
      map_injective KontKey.code_injective (htwinCode.trans hcode.symm)
    have hpolicy : policy ≠ .concrete := fun hconcrete => by
      simp [key?, hm.setting, hconcrete] at hcode
    refine { hm with
      below := List.forall_mem_cons.mpr ⟨hm.below twin htwin, hm.below⟩
      keyed := fun code' address => ?_
      same := ?_
      stored := hmerges ▸ hm.stored.write fun hconcrete => absurd hconcrete hpolicy }
    · simp only [List.mem_cons, exists_eq_or_imp]
      rw [hm.keyed]
      refine ⟨.inr, ?_⟩
      rintro (⟨rfl, hsame⟩ | hold)
      · exact ⟨twin, htwin, rfl, hkey ▸ hsame⟩
      · exact hold
    · exact hsame fun other hother haddress => (hm.same other hother twin htwin haddress).trans hkey
  · have hnew push (hpush : push ∈ history) : push.address ≠ m.allocator.next :=
      Nat.ne_of_lt (hm.below push hpush).2
    refine { hm with
      next := Nat.lt_succ_of_lt hm.next
      below := List.forall_mem_cons.mpr ⟨⟨hm.next, Nat.lt_succ_self _⟩,
        fun push hpush => (hm.below push hpush).imp_right Nat.lt_succ_of_lt⟩
      keyed := fun code address => ?_
      same := ?_
      stored := hmerges ▸ hm.stored.write fun _ => hnew }
    · have hkeyed := hm.keyed code
      have hcode := hbyKey code
      simp only [List.mem_cons, exists_eq_or_imp]
      change byKey[code]? = some address ↔ _ ∧ (m.allocator.key? kont thread).map KontKey.code = some code ∨
        ∃ push ∈ history, _ ∧ (m.allocator.key? push.kont push.thread).map KontKey.code = some code
      split at hcode <;> grind
    · exact hsame fun other hother haddress => absurd haddress (hnew other hother)

/-- A push never fails, and what was pushed in the course of all is filed. -/
theorem Filed.pushAll (hm : Filed policy history m) (calls : List (Continuation × ThreadId)) :
    ∃ pushed m', pushAll calls m = .ok pushed m' ∧ pushed.map (fun push => (push.kont, push.thread)) = calls ∧
      Filed policy (pushed.reverse ++ history) m' := by
  induction calls generalizing history m with
  | nil => exact ⟨[], m, rfl, rfl, hm⟩
  | cons call rest ih =>
    obtain ⟨kont, thread⟩ := call
    obtain ⟨address, m', hrun⟩ : ∃ address m', pushKont kont thread m = .ok address m' := ⟨_, _, rfl⟩
    obtain ⟨pushed, last, hrest, hcalls, hfiled⟩ := ih (hm.push hrun)
    refine ⟨⟨kont, thread, address⟩ :: pushed, last, ?_, by rw [List.map_cons, hcalls], by simpa using hfiled⟩
    exact bind_eq_ok.mpr ⟨_, _, hrun, bind_eq_ok.mpr ⟨_, _, hrest, rfl⟩⟩

theorem filed_new (policy : KontPolicy) (m : Machine ι φ) :
    Filed policy [] { m with allocator := .new policy, konts := .empty } := by
  refine ⟨?_, ?_, ?_, ?_, ?_, ?_, ?_, ?_⟩ <;> simp [KontAllocator.new, KontTable.empty, halt]

/-- **Addresses keep threads and resume points apart.** After any pushes under any policy, no address
is the halt address, and each continuation is read at its address. What is read at an address was
pushed there, and is read once. Under the concrete policy no address is given twice. Under the others
continuations at one address are alike. -/
theorem pushes_keep_apart (policy : KontPolicy) (m : Machine ι φ) (calls : List (Continuation × ThreadId)) :
    ∃ pushed m', pushAll calls { m with allocator := .new policy, konts := .empty } = .ok pushed m' ∧
    pushed.map (fun push => (push.kont, push.thread)) = calls ∧
    (∀ push ∈ pushed, push.address ≠ halt ∧
      ∃ konts, m'.konts.read push.address = .ok konts ∧ push.kont ∈ konts) ∧
    (∀ address konts, m'.konts.read address = .ok konts → konts.Nodup ∧
      ∀ kont ∈ konts, ∃ push ∈ pushed, push.address = address ∧ push.kont = kont) ∧
    (policy = .concrete → (pushed.map (·.address)).Nodup ∧
      ∀ push ∈ pushed, m'.konts.read push.address = .ok [push.kont]) ∧
    (policy ≠ .concrete → ∀ push ∈ pushed, ∀ other ∈ pushed, push.address = other.address →
      push.Alike policy other) := by
  obtain ⟨pushed, m', hrun, hcalls, hfiled⟩ := (filed_new policy m).pushAll calls
  have hread (address : KontAddress) (konts : List Continuation) :
      m'.konts.read address = .ok konts ↔ m'.konts.slots[address]? = some konts := by
    unfold KontTable.read
    cases m'.konts.slots[address]? <;> simp
  obtain ⟨hsetting, -, hbelow, -, hsame, hheld, hkept, halone⟩ := hfiled
  simp only [List.append_nil, List.mem_reverse, List.map_reverse, List.nodup_reverse] at hbelow hsame hheld hkept halone
  refine ⟨pushed, m', hrun, hcalls, ?_⟩
  simp only [hread]
  refine ⟨fun push hpush => ⟨Nat.ne_of_gt (hbelow push hpush).1, hkept push hpush⟩,
    fun _ _ => hheld, halone, fun hpolicy push hpush other hother haddress => ?_⟩
  rw [← hsetting] at hpolicy ⊢
  obtain ⟨key, hkey⟩ := ne_none_iff_exists'.mp (mt key?_eq_none_iff.mp hpolicy)
  exact alike_of_key? hkey ((hsame push hpush other hother haddress).symm.trans hkey)

end Machine

end CoreC
