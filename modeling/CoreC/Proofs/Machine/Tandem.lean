import CoreC.Proofs.Machine.TaskRules

/-! # Machines side by side

Two machines that differ only in the continuations stored do the same as long as no operation
looks at continuations: the same comes of it, or the same fault of the program. Such operations
leave the continuations alone and give tasks whose stance is known.
-/

namespace CoreC

open EStateM

/-- How the others see a task: where it goes on, and what it waits for. -/
abbrev Stance := KontAddress × Option Barrier

def State.stance (state : State) : Stance := (state.kont, state.barrier)

/-- What a task waits for behind the continuation. -/
def Continuation.awaits? (kont : Continuation) : Option Barrier :=
  match kont.kind with
  | .release barrier .wait => some barrier
  | _ => none

namespace Machine

variable {ι φ α β : Type}

/-! ## Two machines side by side -/

/-- The same comes of two computations, up to the continuations stored. -/
inductive Matches (Q : α → Machine ι φ → Machine ι φ → Prop) :
    Result Fault (Machine ι φ) α → Result Fault (Machine ι φ) α → Prop where
  | ok {a : α} {m m' : Machine ι φ} (hQ : Q a m m') : Matches Q (.ok a m) (.ok a m')
  | error {fault : Fault} {m : Machine ι φ} {konts : KontTable} (hfault : fault.isOrdinary = true) :
      Matches Q (.error fault m) (.error fault { m with konts })

variable {next next' : β → MachineM ι φ α} {act act' : MachineM ι φ β} {m m' : Machine ι φ}
  {result result' : Result Fault (Machine ι φ) α}

namespace Matches

variable {Q Q' : α → Machine ι φ → Machine ι φ → Prop} {M : β → Machine ι φ → Machine ι φ → Prop}

theorem bind (hact : Matches M (act m) (act' m'))
    (hnext : ∀ b n n', M b n n' → Matches Q (next b n) (next' b n')) :
    Matches Q ((act >>= next) m) ((act' >>= next') m') := by
  change Matches Q (EStateM.bind act next m) (EStateM.bind act' next' m')
  unfold EStateM.bind
  generalize act m = result at hact
  generalize act' m' = result' at hact
  cases hact with
  | ok hM => exact hnext _ _ _ hM
  | error hfault => exact .error hfault

theorem weaken (hmatches : Matches Q result result') (hQ : ∀ a m m', Q a m m' → Q' a m m') :
    Matches Q' result result' := by
  cases hmatches with
  | ok hresult => exact .ok (hQ _ _ _ hresult)
  | error hfault => exact .error hfault

theorem isOrdinary (hmatches : Matches Q result result') {fault : Fault} (herror : result = .error fault m) :
    fault.isOrdinary = true := by
  cases hmatches with
  | ok => cases herror
  | error hfault =>
    cases herror
    exact hfault

/-- Both operations may look at their machines, as long as they do not look at continuations. -/
theorem view {next next' : Machine ι φ → MachineM ι φ α} (hapart : m' = { m with konts := m'.konts })
    (hsame : ∀ m konts, next' { m with konts } = next' m) (hnext : Matches Q (next m m) (next' m m')) :
    Matches Q ((MonadState.get >>= next) m) ((MonadState.get >>= next') m') := by
  rw [← hsame m m'.konts, ← hapart] at hnext
  exact hnext

end Matches

/-- From machines that `S` relates the same comes of both operations, and `Q` relates the
machines afterwards. -/
def Tandem (S : Machine ι φ → Machine ι φ → Prop) (act act' : MachineM ι φ α)
    (Q : α → Machine ι φ → Machine ι φ → Prop) : Prop :=
  ∀ m m', S m m' → Matches Q (act m) (act' m')

namespace Tandem

variable {S : Machine ι φ → Machine ι φ → Prop} {Q : α → Machine ι φ → Machine ι φ → Prop}
  {M : β → Machine ι φ → Machine ι φ → Prop}

theorem pure {a : α} (ha : ∀ m m', S m m' → Q a m m') :
    Tandem S (Pure.pure a : MachineM ι φ α) (Pure.pure a) Q := fun m m' hm => .ok (ha m m' hm)

theorem bind (hact : Tandem S act act' M) (hnext : ∀ b, Tandem (M b) (next b) (next' b) Q) :
    Tandem S (act >>= next) (act' >>= next') Q :=
  fun m m' hm => (hact m m' hm).bind hnext

theorem weaken {act act' : MachineM ι φ α} {Q' : α → Machine ι φ → Machine ι φ → Prop}
    (hact : Tandem S act act' Q) (hQ : ∀ a m m', Q a m m' → Q' a m m') : Tandem S act act' Q' :=
  fun m m' hm => (hact m m' hm).weaken hQ

theorem ite {c : Prop} [Decidable c] {yes yes' no no' : MachineM ι φ α} (hyes : Tandem S yes yes' Q)
    (hno : Tandem S no no' Q) : Tandem S (if c then yes else no) (if c then yes' else no') Q := by
  split
  · exact hyes
  · exact hno

end Tandem

/-- The program and the continuations are as before. -/
structure Untouched (m n : Machine ι φ) : Prop where
  outline : n.outline = m.outline
  konts : n.konts = m.konts
  allocator : n.allocator = m.allocator

theorem Untouched.trans {middle n : Machine ι φ} (hfirst : Untouched m middle)
    (hsecond : Untouched middle n) : Untouched m n :=
  ⟨hsecond.outline.trans hfirst.outline, hsecond.konts.trans hfirst.konts,
    hsecond.allocator.trans hfirst.allocator⟩

/-- The relation is about the program and the continuations, and relates machines that differ in
nothing but continuations. -/
structure AboutKonts (S : Machine ι φ → Machine ι φ → Prop) : Prop where
  apart : ∀ {m m'}, S m m' → m' = { m with konts := m'.konts }
  moves : ∀ {m m' n}, S m m' → Untouched m n → S n { n with konts := m'.konts }

/-- The machines are related and run the program. -/
def Pinned (o : Outline) (S : Machine ι φ → Machine ι φ → Prop) (m m' : Machine ι φ) : Prop :=
  S m m' ∧ m.outline = o

/-- Under the program the operation neither looks at continuations nor changes them, and its
results meet the condition; only faults of the program come of it. -/
def Detached (o : Outline) (Q : α → Prop) (act : MachineM ι φ α) : Prop :=
  ∀ m konts, m.outline = o → match act m with
    | .ok a n => Untouched m n ∧ Q a ∧ act { m with konts } = .ok a { n with konts }
    | .error fault n => fault.isOrdinary = true ∧ act { m with konts } = .error fault { n with konts }

namespace Detached

variable {o : Outline} {P : β → Prop} {Q : α → Prop}

theorem bind (hact : Detached o P act) (hnext : ∀ b, P b → Detached o Q (next b)) :
    Detached o Q (act >>= next) := by
  intro m konts hm
  have hfirst := hact m konts hm
  change match EStateM.bind act next m with | .ok a n => _ | .error fault n => _
  unfold EStateM.bind
  cases hrun : act m with
  | ok b middle =>
    rw [hrun] at hfirst
    obtain ⟨huntouched, hb, hrun'⟩ := hfirst
    have hsecond := hnext b hb middle konts (huntouched.outline.trans hm)
    dsimp only
    cases hafter : next b middle with
    | ok a n =>
      rw [hafter] at hsecond
      obtain ⟨hlater, ha, hafter'⟩ := hsecond
      exact ⟨huntouched.trans hlater, ha, bind_eq_ok.mpr ⟨b, _, hrun', hafter'⟩⟩
    | error fault n =>
      rw [hafter] at hsecond
      refine ⟨hsecond.1, ?_⟩
      change EStateM.bind act next _ = _
      unfold EStateM.bind
      rw [hrun']
      exact hsecond.2
  | error fault middle =>
    rw [hrun] at hfirst
    refine ⟨hfirst.1, ?_⟩
    change EStateM.bind act next _ = _
    unfold EStateM.bind
    rw [hfirst.2]

theorem get {next : Machine ι φ → MachineM ι φ α} (hsame : ∀ m konts, next { m with konts } = next m)
    (hnext : ∀ m, m.outline = o → Detached o Q (next m)) : Detached o Q (MonadState.get >>= next) := by
  intro m konts hm
  have hlater := hnext m hm m konts hm
  have hrun' : (MonadState.get >>= next) { m with konts } = next m { m with konts } := by
    change next { m with konts } { m with konts } = _
    rw [hsame]
  rw [hrun']
  exact hlater

theorem update {f : Machine ι φ → Machine ι φ} (hf : ∀ m, Untouched m (f m))
    (hsame : ∀ m konts, f { m with konts } = { f m with konts }) :
    Detached o (fun _ => True) (modify f : MachineM ι φ PUnit) := by
  intro m konts _
  refine ⟨hf m, trivial, ?_⟩
  change Result.ok _ (f { m with konts }) = _
  rw [hsame]

theorem onStore {act : StoreM ι φ α} (hact : Throws (fun fault => fault.isOrdinary = true) act) :
    Detached o (fun _ => True) (Machine.onStore act) := by
  intro m konts _
  unfold Machine.onStore
  dsimp only
  cases hrun : act m.store with
  | ok a store => exact ⟨⟨rfl, rfl, rfl⟩, trivial, rfl⟩
  | error fault store => exact ⟨hact _ _ _ hrun, rfl⟩

theorem onEnv {act : Environment → Except Fault (α × Environment)}
    (hact : ∀ env, Raises (fun fault => fault.isOrdinary = true) (act env)) :
    Detached o (fun _ => True) (Machine.onEnv act : MachineM ι φ α) := by
  intro m konts _
  unfold Machine.onEnv
  dsimp only
  cases hrun : act m.env with
  | ok result => exact ⟨⟨rfl, rfl, rfl⟩, trivial, rfl⟩
  | error fault => exact ⟨hact _ _ hrun, rfl⟩

theorem onTeams (act : Teams → α × Teams) :
    Detached o (fun _ => True) (Machine.onTeams act : MachineM ι φ α) :=
  fun _ _ _ => ⟨⟨rfl, rfl, rfl⟩, trivial, rfl⟩

theorem tandem {S : Machine ι φ → Machine ι φ → Prop} {act : MachineM ι φ α} (hact : Detached o Q act)
    (hS : AboutKonts S) : Tandem (Pinned o S) act act fun a m m' => Pinned o S m m' ∧ Q a := by
  intro m m' hm
  have hboth := hact m m'.konts hm.2
  rw [← hS.apart hm.1] at hboth
  cases hrun : act m with
  | ok a n =>
    rw [hrun] at hboth
    obtain ⟨huntouched, ha, hrun'⟩ := hboth
    rw [hrun']
    exact .ok ⟨⟨hS.moves hm.1 huntouched, huntouched.outline.trans hm.2⟩, ha⟩
  | error fault n =>
    rw [hrun] at hboth
    rw [hboth.2]
    exact .error hboth.1

end Detached

section Pinned

variable {o : Outline} {S : Machine ι φ → Machine ι φ → Prop} {Q : α → Machine ι φ → Machine ι φ → Prop}

/-- A detached operation comes first in both. -/
theorem Tandem.after {P : β → Prop} (hS : AboutKonts S) (hact : Detached o P act)
    (hnext : ∀ b, P b → Tandem (Pinned o S) (next b) (next' b) Q) :
    Tandem (Pinned o S) (act >>= next) (act >>= next') Q :=
  .bind (hact.tandem hS) fun b m m' hm => hnext b hm.2 m m' hm.1

end Pinned

/-- Operations that do not look at what is apart are detached, if the domain raises only faults
of the program. -/
def detachedRules [DecidableEq ι] [BEq φ] [Domain ι φ] (o : Outline)
    (hdomain : Domain.Admits ι φ fun fault => fault.isOrdinary = true) : FrameRules ι φ := EnvRules.frameRules {
  Obeys := Detached o
  Allowed fault := fault.isOrdinary = true
  Meets m := m.outline = o
  admits := hdomain
  pure ha _ _ _ := ⟨⟨rfl, rfl, rfl⟩, ha, rfl⟩
  throw hfault _ _ _ := ⟨hfault, rfl⟩
  bind := .bind
  view hsame := .get fun _ _ => hsame
  onStore _ := .onStore
  onEnv _ := .onEnv
  threads _ := .onTeams _
  note _ _ := .update (fun _ => ⟨rfl, rfl, rfl⟩) fun _ _ => rfl
  print _ _ _ := .update (fun _ => ⟨rfl, rfl, rfl⟩) fun _ _ => rfl } (fun _ => trivial)
  fun _ _ _ => .update (fun _ => ⟨rfl, rfl, rfl⟩) fun _ _ => rfl

end Machine

end CoreC
