import CoreC.Proofs.Machine.Determinism
import CoreC.Proofs.Memory.Typed

/-! # Machines with typed memory

Every write of the machine is of values that were converted to the class of their place, and
objects are copied unit by unit with the class of each unit. So the memory of every machine
that a run comes by is typed, in each domain that keeps known integers in range.
-/

namespace CoreC.Machine

open Store

variable {settings : Settings} {p : Program} {ι φ α β : Type}

theorem anyMove : Evolution fun _ _ : Machine ι φ => True := ⟨fun _ => trivial, fun _ _ => trivial⟩

variable [DecidableEq ι] [BEq φ] [Domain ι φ] {t : Target}

/-- The machine runs on the target, with memory that is typed for it. -/
structure Typed (t : Target) (m : Machine ι φ) : Prop where
  settings : m.settings.target = t
  target : m.store.target = t
  store : m.store.Typed

/-- From a typed machine the operation leads to a typed one, whether it succeeds or fails; what
it returns meets the condition. -/
abbrev Sound (t : Target) (Q : α → Prop) (act : MachineM ι φ α) : Prop :=
  Secures (Typed t) (fun _ _ => True) (fun _ => True) act fun a _ => Q a

namespace Sound

variable {P : β → Prop} {Q : α → Prop}

theorem pure {a : α} (ha : Q a) : Sound t Q (Pure.pure a : MachineM ι φ α) :=
  Secures.pure anyMove fun _ _ _ => ha

theorem throw (fault : Fault) : Sound t Q (MonadExcept.throw fault : MachineM ι φ α) :=
  Secures.throw anyMove fault

theorem bind {act : MachineM ι φ β} {next : β → MachineM ι φ α} (hact : Sound t P act)
    (hnext : ∀ b, P b → Sound t Q (next b)) : Sound t Q (act >>= next) :=
  Secures.bind anyMove hact fun b => Secures.assuming (hnext b)

theorem get : Sound t (Typed t) (MonadState.get : MachineM ι φ (Machine ι φ)) :=
  (Secures.get anyMove).weaken fun _ _ hseen => hseen.1 ▸ hseen.2.1

theorem check {result : Except Fault α} (hresult : ∀ a, result = .ok a → Q a) :
    Sound t Q (Machine.check result : MachineM ι φ α) := by
  cases result with
  | ok a => exact pure (hresult a rfl)
  | error fault => exact throw fault

/-- What changes neither memory nor the settings keeps the machine typed. -/
theorem aside {act : MachineM ι φ α} (hstore : ∀ m, (leaves act m).store = m.store)
    (hsettings : ∀ m, (leaves act m).settings = m.settings) : Sound t (fun _ => True) act := by
  intro m hm _
  refine ⟨⟨?_, ?_, ?_⟩, trivial, fun _ _ _ => trivial⟩
  · rw [hsettings m]
    exact hm.settings
  · rw [hstore m]
    exact hm.target
  · rw [hstore m]
    exact hm.store

theorem onStore {act : StoreM ι φ α} (hact : Types t act) :
    Sound t (fun _ => True) (Machine.onStore act) := by
  refine secures_onStore fun m hm _ => ⟨?_, trivial, fun _ _ _ => trivial⟩
  obtain ⟨htarget, htyped⟩ := hact m.store ⟨hm.target, hm.store⟩
  exact ⟨hm.settings, htarget, htyped⟩

theorem onTeams (act : Teams → α × Teams) :
    Sound t (fun _ => True) (Machine.onTeams act : MachineM ι φ α) :=
  aside (fun _ => rfl) fun _ => rfl

end Sound

theorem typed_new {m : Machine ι φ} (hnew : Machine.new p settings = .ok m) :
    m.Typed settings.target := by
  obtain ⟨outline, -, hm⟩ := exists_of_bind_ok hnew
  cases hm
  exact ⟨rfl, rfl, fun hcell => by simp [Store.new] at hcell⟩

variable [Domain.Ranged ι φ]

/-- The machine keeps its memory typed. -/
def typedRules (t : Target) : StepRules ι φ where
  toFrameRules := EnvRules.frameRules {
  Obeys := Sound t
  Meets := Typed t
  Stores := Types t
  pure := .pure
  throw _ := .throw _
  bind := .bind
  view _ hnext := .bind .get hnext
  onStore hact _ := .onStore hact
  onEnv _ _ := secures_onEnv anyMove fun _ _ _ hm _ _ => ⟨⟨hm.settings, hm.target, hm.store⟩, trivial, trivial⟩
  note _ _ := .aside (fun _ => rfl) fun _ => rfl
  print _ _ _ := .aside (fun _ => rfl) fun _ => rfl
  threads _ := .onTeams _
  literal := (typing t).literal (fun _ _ _ => trivial) (fun _ => trivial) fun s _ n _ => List.forall_mem_singleton.mpr
    (Value.fits_ofInt s.target _ n)
  malloc call _ _ := (typing t).malloc (fun _ _ _ => trivial) call fun _ _ => trivial
  free := (typing t).free
  clear := types_zeroFill t
  allocates _ _ _ := (typing t).allocate trivial fun _ _ => trivial
  writes address _ _ hm _ hconverted :=
    (typing t).write address fun s hs => hs.1.trans hm.target.symm ▸ fits_convert hconverted
  copies source dest units := (typing t).copyUnits source dest (fun hread hs =>
    (Typed.read hs.2 hread).forall_mem) units 0
  chars address type step text := (typing t).writeChars address
    (fun s _ n _ => List.forall_mem_singleton.mpr (Value.fits_ofInt s.target type n)) step text 0 }
    (fun _ => trivial) fun _ _ _ => .aside (fun _ => rfl) fun _ => rfl
  look hnext := .bind .get hnext
  kont _ _ := .aside (fun _ => rfl) fun _ => rfl
  teams _ := .onTeams _
  returned _ := .aside (fun _ => rfl) fun _ => rfl

end CoreC.Machine

namespace CoreC.Config

variable {ι φ : Type} [DecidableEq ι] [BEq φ] [Domain ι φ] [Domain.Ranged ι φ] {settings : Settings}
  {p : Program}

/-- The memory of every machine that a run comes by is typed. -/
theorem Occurs.typed {c : Config ι φ} (hoccurs : c.Occurs p settings) :
    c.machine.Typed settings.target := by
  induction hoccurs with
  | start hnew hstart =>
    have hm := ((Machine.typedRules settings.target).start _ (Machine.typed_new hnew) trivial).1
    rwa [leaves_of_ok hstart] at hm
  | stop hnew hstart =>
    have hm := ((Machine.typedRules settings.target).start _ (Machine.typed_new hnew) trivial).1
    rwa [leaves_of_error hstart] at hm
  | @step m m' live states state _ hstate hstep ih =>
    have hm := ((Machine.typedRules settings.target).step state m ih trivial).1
    rwa [leaves_of_ok hstep] at hm
  | @fail m m' live state fault _ hstate hstep ih =>
    have hm := ((Machine.typedRules settings.target).step state m ih trivial).1
    rwa [leaves_of_error hstep] at hm
  | wake _ _ ih => exact ih
  | sweep _ _ ih => exact ⟨ih.settings, ih.target, ih.store⟩

end CoreC.Config
