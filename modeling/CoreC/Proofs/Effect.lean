import Mathlib.Data.List.Forall2

/-! # What computations leave behind

A computation of the machine keeps the changes it made before it failed, so it leaves a
state behind in either case. A relation that allows every single change of a computation,
and any sequence of allowed changes, holds between the state before and the state after.
-/

namespace CoreC

open List Option

variable {ε σ α β : Type}

/-- The state after a computation, whether it succeeded or failed. -/
def leaves (act : EStateM ε σ α) (s : σ) : σ :=
  match act s with
  | .ok _ s => s
  | .error _ s => s

variable {act : EStateM ε σ α} {items : List α} {f : α → Except ε β} {next : β → EStateM ε σ α} {s s' : σ} {a : α}

theorem leaves_of_ok (hrun : act s = .ok a s') : leaves act s = s' := by rw [leaves, hrun]

theorem leaves_of_error {e : ε} (hrun : act s = .error e s') : leaves act s = s' := by rw [leaves, hrun]

theorem leaves_congr {act' : EStateM ε σ α} (hrun : act s = act' s') : leaves act s = leaves act' s' := by
  rw [leaves, leaves, hrun]

/-- The answer of a computation that succeeds, with the state it leads to. -/
def answer? (act : EStateM ε σ α) (s : σ) : Option (α × σ) :=
  match act s with
  | .ok a s' => some (a, s')
  | .error .. => none

theorem eq_ok_of_answer? (hanswer : answer? act s = some (a, s')) : act s = .ok a s' := by
  unfold answer? at hanswer
  split at hanswer <;> cases hanswer
  assumption

theorem leaves_bind (act : EStateM ε σ α) (next : α → EStateM ε σ β) (s : σ) :
    leaves (act >>= next) s = match act s with
      | .ok a middle => leaves (next a) middle
      | .error _ middle => middle := by
  change leaves (EStateM.bind act next) s = _
  unfold leaves EStateM.bind
  cases act s <;> rfl

variable {b : β}

/-- A success of two computations in a row is a success of each. -/
theorem bind_eq_ok {next : α → EStateM ε σ β} :
    (act >>= next) s = .ok b s' ↔ ∃ a middle, act s = .ok a middle ∧ next a middle = .ok b s' := by
  change EStateM.bind act next s = .ok b s' ↔ _
  unfold EStateM.bind
  cases hact : act s with
  | ok a middle =>
    refine ⟨fun hnext => ⟨a, middle, rfl, hnext⟩, ?_⟩
    rintro ⟨a', middle', heq, hnext⟩
    cases heq
    exact hnext
  | error e middle => simp

theorem get_bind_eq_ok {next : σ → EStateM ε σ β} :
    (get >>= next) s = .ok b s' ↔ next s s = .ok b s' := Iff.rfl

/-- A success of a mapped computation is the image of a success. -/
theorem exists_of_map_ok {f : α → β} {act : Except ε α} (hmap : act.map f = .ok b) :
    ∃ a, act = .ok a ∧ f a = b := by
  cases act with
  | ok a => exact ⟨a, rfl, by simpa [Except.map] using hmap⟩
  | error e => cases hmap

theorem exists_of_bind_ok {act : Except ε α} {next : α → Except ε β}
    (hrun : act >>= next = .ok b) : ∃ a, act = .ok a ∧ next a = .ok b := by
  cases act with
  | ok a => exact ⟨a, rfl, hrun⟩
  | error e => cases hrun

/-- Both computations fail alike, or both succeed with results that are related. -/
inductive Agree {γ δ : Type} (R : γ → δ → Prop) : Except ε γ → Except ε δ → Prop where
  | ok {a : γ} {b : δ} (hab : R a b) : Agree R (.ok a) (.ok b)
  | error (e : ε) : Agree R (.error e) (.error e)

theorem Agree.bind {α' β' : Type} {R : α → α' → Prop} {Q : β → β' → Prop} {act : Except ε α}
    {act' : Except ε α'} {next : α → Except ε β} {next' : α' → Except ε β'} (hact : Agree R act act')
    (hnext : ∀ a b, R a b → Agree Q (next a) (next' b)) : Agree Q (act >>= next) (act' >>= next') := by
  cases hact with
  | ok hab => exact hnext _ _ hab
  | error e => exact .error e

theorem cases_rel {R : α → β → Prop} {found : Option α} {known : Option β}
    (hrel : Rel R found known) :
    found = none ∧ known = none ∨ ∃ a b, found = some a ∧ known = some b ∧ R a b := by
  cases hrel with
  | none => exact .inl ⟨rfl, rfl⟩
  | some hab => exact .inr ⟨_, _, rfl, rfl, hab⟩

theorem rel_trans {γ : Type} {R : α → β → Prop} {Q : β → γ → Prop} {T : α → γ → Prop}
    (htrans : ∀ {a b c}, R a b → Q b c → T a c) {first : Option α} {middle : Option β}
    {last : Option γ} (hfirst : Rel R first middle) (hlast : Rel Q middle last) :
    Rel T first last := by
  cases hfirst with
  | none =>
    cases hlast
    exact .none
  | some hab =>
    cases hlast with
    | some hbc => exact .some (htrans hab hbc)

variable {out : List β}

theorem exists_mapM_ok (hf : ∀ a ∈ items, ∃ b, f a = .ok b) : ∃ out, items.mapM f = .ok out := by
  rw [← mapM'_eq_mapM]
  induction items with
  | nil => exact ⟨[], rfl⟩
  | cons a rest ih =>
    obtain ⟨b, hb⟩ := hf a mem_cons_self
    obtain ⟨out, hout⟩ := ih fun other hother => hf other (mem_cons_of_mem a hother)
    refine ⟨b :: out, ?_⟩
    rw [mapM'_cons, hb, hout]
    rfl

section

variable (hrun : items.mapM f = .ok out)

include hrun

/-- The outcomes of a computation on each of some items are those of the items. -/
theorem map_eq_of_mapM_ok : items.map f = out.map .ok := by
  rw [← mapM'_eq_mapM] at hrun
  induction items generalizing out with
  | nil =>
    cases hrun
    rfl
  | cons a rest ih =>
    obtain ⟨b, hb, hrun⟩ := exists_of_bind_ok hrun
    obtain ⟨others, hothers, hout⟩ := exists_of_bind_ok hrun
    cases hout
    rw [map_cons, map_cons, hb, ih hothers]

theorem mem_of_mapM_ok :
    (∀ a ∈ items, ∃ b ∈ out, f a = .ok b) ∧ ∀ b ∈ out, ∃ a ∈ items, f a = .ok b := by
  have hsame := map_eq_of_mapM_ok hrun
  refine ⟨fun a ha => ?_, fun b hb => mem_map.mp (hsame ▸ mem_map_of_mem hb)⟩
  obtain ⟨b, hb, heq⟩ := mem_map.mp (hsame ▸ mem_map_of_mem ha)
  exact ⟨b, hb, heq.symm⟩

theorem length_of_mapM_ok : out.length = items.length := by
  simpa using (congrArg length (map_eq_of_mapM_ok hrun)).symm

end

theorem ne_nil_of_mapM_ok (hitems : items ≠ []) (hrun : items.mapM f = .ok out) : out ≠ [] := by
  rintro rfl
  exact hitems (map_eq_nil_iff.mp (map_eq_of_mapM_ok hrun))

/-- What every step of a fold brings about holds at its end. -/
theorem foldlM_ok_induction {P : β → Prop} {f : β → α → Except ε β} {start out : β}
    (hitems : items ≠ [] ∨ P start) (hf : ∀ b, ∀ a ∈ items, ∀ b', f b a = .ok b' → P b')
    (hrun : items.foldlM f start = .ok out) : P out := by
  induction items generalizing start with
  | nil =>
    cases hrun
    exact hitems.resolve_left (· rfl)
  | cons a rest ih =>
    obtain ⟨middle, hmiddle, hrest⟩ := exists_of_bind_ok hrun
    refine ih (.inr (hf start a mem_cons_self middle hmiddle)) (fun b other hother => ?_) hrest
    exact hf b other (mem_cons_of_mem a hother)

/-- Changes that include doing nothing and one change after another. -/
structure Evolution (R : σ → σ → Prop) : Prop where
  refl : ∀ s, R s s
  trans : ∀ {a b c}, R a b → R b c → R a c

theorem Evolution.implies (I : σ → Prop) : Evolution fun s s' => I s → I s' :=
  ⟨fun _ => id, fun hfirst hsecond => hsecond ∘ hfirst⟩

/-- Changes that keep up a condition, and are of a kind where it holds. -/
theorem Evolution.under (I : σ → Prop) {R : σ → σ → Prop} (hR : Evolution R) :
    Evolution fun s s' => I s → I s' ∧ R s s' where
  refl s hs := ⟨hs, hR.refl s⟩
  trans hfirst hsecond hs := by
    obtain ⟨hmiddle, hstep⟩ := hfirst hs
    obtain ⟨hs', hstep'⟩ := hsecond hmiddle
    exact ⟨hs', hR.trans hstep hstep'⟩

/-- The computation changes the state only in ways that `R` allows. -/
def Keeps (R : σ → σ → Prop) (act : EStateM ε σ α) : Prop := ∀ s, R s (leaves act s)

variable {yes no : EStateM ε σ α} {c : Prop}

namespace Keeps

variable {R : σ → σ → Prop}

section

variable (hR : Evolution R)

include hR

theorem pure (a : α) : Keeps R (Pure.pure a : EStateM ε σ α) := fun s => hR.refl s

theorem throw (e : ε) : Keeps R (MonadExcept.throw e : EStateM ε σ α) := fun s => hR.refl s

theorem get : Keeps R (MonadState.get : EStateM ε σ σ) := fun s => hR.refl s

theorem bind_at {next : α → EStateM ε σ β} {s : σ} (hact : R s (leaves act s))
    (hnext : ∀ a, Keeps R (next a)) : R s (leaves (act >>= next) s) := by
  rw [leaves_bind]
  unfold leaves at hact
  split at hact
  · exact hR.trans hact (hnext _ _)
  · exact hact

theorem bind {next : α → EStateM ε σ β} (hact : Keeps R act)
    (hnext : ∀ a, Keeps R (next a)) : Keeps R (act >>= next) := fun s => bind_at hR (hact s) hnext

end

theorem read {next : σ → EStateM ε σ α} (hnext : ∀ s, R s (leaves (next s) s)) :
    Keeps R (MonadState.get >>= next) := hnext

theorem foldlM (hR : Evolution R) {f : β → α → EStateM ε σ β} (items : List α) (start : β)
    (hf : ∀ b a, Keeps R (f b a)) : Keeps R (items.foldlM f start) := by
  induction items generalizing start with
  | nil => exact pure hR _
  | cons a rest ih => exact bind hR (hf start a) fun b => ih b

end Keeps

/-- From a state that meets `I` the computation, when it succeeds, leads to one that meets
`I`, changes the state only in ways that `R` allows, and returns what meets `Q`. -/
def Ensures (I : σ → Prop) (R : σ → σ → Prop) (Q : α → Prop) (act : EStateM ε σ α) : Prop :=
  ∀ s a s', I s → act s = .ok a s' → I s' ∧ R s s' ∧ Q a

namespace Ensures

variable {I : σ → Prop} {R : σ → σ → Prop} {P : β → Prop} {Q : α → Prop}

theorem pure (hR : Evolution R) (ha : Q a) : Ensures I R Q (Pure.pure a : EStateM ε σ α) := by
  intro s b s' hs hrun
  cases hrun
  exact ⟨hs, hR.refl s, ha⟩

theorem throw (e : ε) : Ensures I R Q (MonadExcept.throw e : EStateM ε σ α) := by
  intro s a s' _ hrun
  cases hrun

theorem get (hR : Evolution R) : Ensures I R I (MonadState.get : EStateM ε σ σ) := by
  intro s a s' hs hrun
  cases hrun
  exact ⟨hs, hR.refl s, hs⟩

theorem update (f : σ → σ) (hI : ∀ s, I s → I (f s)) (hR : ∀ s, R s (f s)) :
    Ensures I R (fun _ => True) (modify f : EStateM ε σ PUnit) := by
  intro s a s' hs hrun
  cases hrun
  exact ⟨hI s hs, hR s, trivial⟩

theorem bind (hR : Evolution R) {act : EStateM ε σ β} (hact : Ensures I R P act)
    (hnext : ∀ b, P b → Ensures I R Q (next b)) : Ensures I R Q (act >>= next) := by
  intro s a s' hs hrun
  obtain ⟨b, middle, hfirst, hsecond⟩ := bind_eq_ok.mp hrun
  obtain ⟨hmiddle, hstep, hb⟩ := hact s b middle hs hfirst
  obtain ⟨hs', hstep', ha⟩ := hnext b hb middle a s' hmiddle hsecond
  exact ⟨hs', hR.trans hstep hstep', ha⟩

end Ensures

/-- From a state that meets `P` the computation, when it succeeds, leads to a result and a
state that meet `Q`. -/
def Triple (P : σ → Prop) (act : EStateM ε σ α) (Q : α → σ → Prop) : Prop :=
  ∀ s a s', P s → act s = .ok a s' → Q a s'

namespace Triple

variable {P : σ → Prop} {Q : α → σ → Prop} {M : β → σ → Prop}

theorem get : Triple P (MonadState.get : EStateM ε σ σ) fun seen s => seen = s ∧ P s := by
  intro s a s' hs hrun
  cases hrun
  exact ⟨rfl, hs⟩

theorem bind {act : EStateM ε σ β} (hact : Triple P act M) (hnext : ∀ b, Triple (M b) (next b) Q) :
    Triple P (act >>= next) Q := by
  intro s a s' hs hrun
  obtain ⟨b, middle, hfirst, hsecond⟩ := bind_eq_ok.mp hrun
  exact hnext b middle a s' (hact s b middle hs hfirst) hsecond

end Triple

/-- From a state that meets `I` and `P` the computation leads, even when it fails, to one that
meets `I`, and changes the state only in ways that `R` allows. When it succeeds, its result
and the state it leads to meet `Q`. -/
def Secures (I : σ → Prop) (R : σ → σ → Prop) (P : σ → Prop) (act : EStateM ε σ α)
    (Q : α → σ → Prop) : Prop :=
  ∀ s, I s → P s → I (leaves act s) ∧ R s (leaves act s) ∧ ∀ a s', act s = .ok a s' → Q a s'

namespace Secures

variable {I : σ → Prop} {R : σ → σ → Prop} {P : σ → Prop} {Q : α → σ → Prop} {M : β → σ → Prop}

theorem pure (hR : Evolution R) (ha : ∀ s, I s → P s → Q a s) :
    Secures I R P (Pure.pure a : EStateM ε σ α) Q := by
  intro s hs hP
  refine ⟨hs, hR.refl s, fun b s' hrun => ?_⟩
  cases hrun
  exact ha s hs hP

theorem throw (hR : Evolution R) (e : ε) :
    Secures I R P (MonadExcept.throw e : EStateM ε σ α) Q := by
  intro s hs _
  refine ⟨hs, hR.refl s, fun b s' hrun => ?_⟩
  cases hrun

theorem get (hR : Evolution R) :
    Secures I R P (MonadState.get : EStateM ε σ σ) fun seen s => seen = s ∧ I s ∧ P s := by
  intro s hs hP
  refine ⟨hs, hR.refl s, fun b s' hrun => ?_⟩
  cases hrun
  exact ⟨rfl, hs, hP⟩

theorem bind (hR : Evolution R) {act : EStateM ε σ β} (hact : Secures I R P act M)
    (hnext : ∀ b, Secures I R (M b) (next b) Q) : Secures I R P (act >>= next) Q := by
  intro s hs hP
  obtain ⟨hI, hstep, hresult⟩ := hact s hs hP
  rw [leaves_bind]
  cases hrun : act s with
  | ok b middle =>
    rw [leaves_of_ok hrun] at hI hstep
    obtain ⟨hI', hstep', hresult'⟩ := hnext b middle hI (hresult b middle hrun)
    refine ⟨hI', hR.trans hstep hstep', fun a s' hboth => ?_⟩
    obtain ⟨b', middle', hfirst, hsecond⟩ := bind_eq_ok.mp hboth
    rw [hrun] at hfirst
    cases hfirst
    exact hresult' a s' hsecond
  | error e middle =>
    rw [leaves_of_error hrun] at hI hstep
    refine ⟨hI, hstep, fun a s' hboth => ?_⟩
    obtain ⟨b', middle', hfirst, -⟩ := bind_eq_ok.mp hboth
    rw [hrun] at hfirst
    cases hfirst

/-- The state that was read is one of those that the computation may meet. -/
theorem read {next : σ → EStateM ε σ α} (hnext : ∀ seen, I seen → P seen → Secures I R P (next seen) Q) :
    Secures I R P (MonadState.get >>= next) Q := fun s hs hP => hnext s hs hP s hs hP

/-- The state that was read is the state that the computation goes on with. -/
theorem readNow {next : σ → EStateM ε σ α}
    (hnext : ∀ seen, I seen → P seen → Secures I R (· = seen) (next seen) Q) :
    Secures I R P (MonadState.get >>= next) Q := fun s hs hP => hnext s hs hP s hs rfl

variable {act : EStateM ε σ α}

theorem from_pre {P' : σ → Prop} (hact : Secures I R P act Q) (hP : ∀ s, I s → P' s → P s) :
    Secures I R P' act Q :=
  fun s hs hP' => hact s hs (hP s hs hP')

theorem weaken {Q' : α → σ → Prop} (hact : Secures I R P act Q) (hQ : ∀ a s, Q a s → Q' a s) :
    Secures I R P act Q' := by
  intro s hs hP
  obtain ⟨hI, hstep, hresult⟩ := hact s hs hP
  exact ⟨hI, hstep, fun a s' hrun => hQ a s' (hresult a s' hrun)⟩

/-- What comes next is told the state that it starts in. -/
theorem bind_at (hR : Evolution R) {act : EStateM ε σ β} {s : σ} (hact : Secures I R (· = s) act M)
    (hnext : ∀ s' b, R s s' → M b s' → Secures I R (· = s') (next b) Q) :
    Secures I R (· = s) (act >>= next) Q := by
  refine bind hR (M := fun b s' => R s s' ∧ M b s') ?_ fun b s' hs' hb => hnext s' b hb.1 hb.2 s' hs' rfl
  rintro _ hs rfl
  obtain ⟨hI, hstep, hresult⟩ := hact _ hs rfl
  refine ⟨hI, hstep, fun b s' hrun => ⟨?_, hresult b s' hrun⟩⟩
  rwa [leaves_of_ok hrun] at hstep

/-- What is asked of the state may be about something else altogether. -/
theorem assuming {fact : Prop} (hact : fact → Secures I R (fun _ => True) act Q) :
    Secures I R (fun _ => fact) act Q :=
  fun s hs hfact => hact hfact s hs trivial

theorem ite [Decidable c] (hyes : c → Secures I R P yes Q) (hno : ¬c → Secures I R P no Q) :
    Secures I R P (if c then yes else no) Q := by
  split
  next h => exact hyes h
  next h => exact hno h

end Secures

end CoreC
