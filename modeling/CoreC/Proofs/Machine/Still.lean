import CoreC.Proofs.Machine.TaskRules
import CoreC.Proofs.Memory.Filled

/-! # Still operations

Evaluation, moving control and writing objects print, bind names and change memory, but they store
no continuation, let no task through a barrier and do not touch the books of the teams. Over filled
memory evaluation gives a value set with a member.
-/

namespace CoreC.Machine

open Ensures Store Value Machine

variable {ι φ α : Type}

/-- The program, the continuations, the barriers and the books of the teams stay as they are, and
filled memory stays filled. The number of threads that a region asks for may change. -/
structure Still (m m' : Machine ι φ) : Prop where
  outline : m'.outline = m.outline
  konts : m'.konts = m.konts
  allocator : m'.allocator = m.allocator
  teams : m'.teams = { m.teams with numThreads := m'.teams.numThreads }
  filled : m.store.Filled → m'.store.Filled

namespace Still

variable {m middle m' : Machine ι φ}

theorem refl (m : Machine ι φ) : Still m m := ⟨rfl, rfl, rfl, rfl, id⟩

theorem trans (hfirst : Still m middle) (hsecond : Still middle m') : Still m m' where
  outline := hsecond.outline.trans hfirst.outline
  konts := hsecond.konts.trans hfirst.konts
  allocator := hsecond.allocator.trans hfirst.allocator
  teams := by rw [hsecond.teams, hfirst.teams]
  filled := hsecond.filled ∘ hfirst.filled

theorem program (hstill : Still m m') : m'.program = m.program :=
  congrArg Outline.program hstill.outline

theorem pending (hstill : Still m m') (barrier : Barrier) :
    m'.teams.pending barrier = m.teams.pending barrier := by
  rw [hstill.teams]
  rfl

theorem slots (hstill : Still m m') : m'.teams.slots = m.teams.slots := by rw [hstill.teams]

end Still

theorem stilly : Evolution (Still (ι := ι) (φ := φ)) := ⟨.refl, .trans⟩

/-- The machine runs the program, over filled memory. -/
def Runs (o : Outline) (m : Machine ι φ) : Prop := m.outline = o ∧ m.store.Filled

/-- Over filled memory the operation is still, and returns what meets `Q`. -/
abbrev Steady (o : Outline) (Q : α → Prop) (act : MachineM ι φ α) : Prop := Ensures (Runs o) Still Q act

theorem Steady.update {o : Outline} {f : Machine ι φ → Machine ι φ} (hf : ∀ m, Still m (f m)) :
    Steady o (fun _ => True) (modify f : MachineM ι φ PUnit) :=
  Ensures.update f (fun m hm => ⟨(hf m).outline.trans hm.1, (hf m).filled hm.2⟩) hf

section Steadily

variable [Domain ι φ]

open ValueSet

theorem indexedAddresses_ne_nil {m : Machine ι φ} {size : Nat} {bases indices : List (Value ι φ)}
    {found : List Address} (hbases : bases ≠ []) (hindices : indices ≠ [])
    (hfound : m.indexedAddresses size bases indices = .ok found) : found ≠ [] := by
  refine foldlM_ok_induction (P := (· ≠ [])) (.inl hbases) (fun known base _ out hout => ?_) hfound
  obtain ⟨start, -, hout⟩ := exists_of_bind_ok hout
  refine foldlM_ok_induction (P := (· ≠ [])) (.inl hindices) (fun known index _ out hout => ?_) hout
  obtain ⟨n, -, hout⟩ := exists_of_bind_ok hout
  obtain ⟨address, -, hout⟩ := exists_of_bind_ok hout
  cases hout
  split
  next hknown => exact List.ne_nil_of_mem hknown
  next => simp

variable [DecidableEq ι] [BEq φ] [Domain.Productive ι φ]

/-- Over filled memory evaluation gives a value, and a place where it is asked for one; what binds
names and writes objects leaves memory filled. -/
def stillRules (o : Outline) : FrameRules ι φ := EnvRules.frameRules {
  Obeys := Steady o
  Meets := Runs o
  Values := HasMember
  Places := (· ≠ [])
  Stores := Fills
  pure := pure stilly
  throw _ := throw _
  bind := bind stilly
  view _ := bind stilly (get stilly)
  onStore hact _ := by
    intro m a m' hm hrun
    obtain ⟨store, hstore, rfl⟩ := exists_of_onStore_ok hrun
    have hfilled : store.Filled := leaves_of_ok hstore ▸ hact m.store hm.2
    exact ⟨⟨hm.1, hfilled⟩, ⟨rfl, rfl, rfl, rfl, fun _ => hfilled⟩, trivial⟩
  onEnv _ _ := by
    intro m a m' hm hrun
    unfold onEnv at hrun
    split at hrun <;> cases hrun
    exact ⟨hm, ⟨rfl, rfl, rfl, rfl, id⟩, trivial⟩
  note _ _ := .update fun _ => ⟨rfl, rfl, rfl, rfl, id⟩
  print _ _ _ := .update fun _ => ⟨rfl, rfl, rfl, rfl, id⟩
  threads _ := by
    intro m a m' hm hrun
    cases hrun
    exact ⟨hm, ⟨rfl, rfl, rfl, rfl, id⟩, trivial⟩
  literal node _ := filling.literal (fun _ _ _ => trivial) (fun _ => trivial)
    (fun _ _ _ _ => hasMember_singleton _) node _
  malloc call _ _ := filling.malloc (fun _ _ _ => trivial) call fun _ _ => trivial
  free := filling.free
  clear base := filling.zeroFill base fun _ hupdates hs => hs.commit (hasMember_zeroUpdates hupdates)
  single := hasMember_singleton
  place _ := List.cons_ne_nil _ _
  read hm hplaces hvalues := hasMember_foldlM (.inl hplaces)
    (fun _ _ _ hread => Filled.read hm.2 hread) hvalues
  operate hlefts hrights hout :=
    quota_ne_nil.lift₂ hlefts hrights (fun _ _ _ => quota_ne_nil.operate yields_ne_nil) hout
  unary hvalues hout :=
    hasMember_foldlM (.inl hvalues) (fun _ _ _ => quota_ne_nil.operateUnary yields_ne_nil) hout
  convert _ hvalues hout := quota_ne_nil.convert yields_ne_nil hvalues hout
  targets hvalues hplaces := ne_nil_of_mapM_ok hvalues hplaces
  indexed hbases hindices hplaces := indexedAddresses_ne_nil hbases hindices hplaces
  pointers _ hplaces := hasMember_ofList (by simpa using hplaces)
  allocates _ _ _ := filling.allocate trivial fun _ _ => trivial
  writes address _ _ _ hvalues hconverted :=
    filling.write address fun _ _ => quota_ne_nil.convert yields_ne_nil hvalues hconverted
  copies source dest units := filling.copyUnits source dest (fun hread hs => hs.read hread) units 0
  chars address _ step text := filling.writeChars address (fun _ _ _ _ => hasMember_singleton _) step text 0
  undetermined _ := hasMember_ofList (List.cons_ne_nil _ _) } (fun _ => trivial)
  fun _ _ _ => .update fun _ => ⟨rfl, rfl, rfl, rfl, id⟩

end Steadily

/-! ## The program -/

/-- The machine runs the same program under the same settings. -/
def SameProgram (m m' : Machine ι φ) : Prop := m'.outline = m.outline ∧ m'.settings = m.settings

theorem sameProgram : Evolution (SameProgram (ι := ι) (φ := φ)) :=
  ⟨fun _ => ⟨rfl, rfl⟩, fun hfirst hsecond => ⟨hsecond.1.trans hfirst.1, hsecond.2.trans hfirst.2⟩⟩

/-- Whatever a machine does, it runs the same program under the same settings. -/
def programRules [DecidableEq ι] [BEq φ] [Domain ι φ] : StepRules ι φ where
  toFrameRules := EnvRules.frameRules {
    Obeys := Ensures (fun _ => True) SameProgram
    pure := pure sameProgram
    throw _ := throw _
    bind := bind sameProgram
    view _ hnext m a m' hm hrun := hnext m trivial m a m' hm hrun
    onStore _ _ := by
      intro m a m' _ hrun
      obtain ⟨_, -, rfl⟩ := exists_of_onStore_ok hrun
      exact ⟨trivial, ⟨rfl, rfl⟩, trivial⟩
    onEnv _ _ := by
      intro m a m' _ hrun
      unfold onEnv at hrun
      split at hrun <;> cases hrun
      exact ⟨trivial, ⟨rfl, rfl⟩, trivial⟩
    note _ _ := Ensures.update _ (fun _ _ => trivial) fun _ => ⟨rfl, rfl⟩
    print _ _ _ := Ensures.update _ (fun _ _ => trivial) fun _ => ⟨rfl, rfl⟩
    threads _ _ _ _ _ hrun := by cases hrun; exact ⟨trivial, ⟨rfl, rfl⟩, trivial⟩ }
    (fun _ => trivial) fun _ _ _ => Ensures.update _ (fun _ _ => trivial) fun _ => ⟨rfl, rfl⟩
  look hnext m a m' hm hrun := hnext m trivial m a m' hm hrun
  kont _ _ _ _ _ _ hrun := by cases hrun; exact ⟨trivial, ⟨rfl, rfl⟩, trivial⟩
  teams _ _ _ _ _ hrun := by cases hrun; exact ⟨trivial, ⟨rfl, rfl⟩, trivial⟩
  returned _ := Ensures.update _ (fun _ _ => trivial) fun _ => ⟨rfl, rfl⟩

end CoreC.Machine
