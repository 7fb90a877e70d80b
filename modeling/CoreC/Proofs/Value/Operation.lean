import CoreC.Memory.Object
import CoreC.Proofs.Effect

/-! # How operators apply

An operator on two values has results in a few ways only, told by the kinds of the operands:
arithmetic and comparison of numbers, comparison and distance of addresses, an address moved by
a number of elements, and comparison of functions. What holds of the results of every one of
these holds of the results of the operator. So it is with the number of results: if operations of
the domain have some outcome, or exactly one, then so have operators and conversions of values.
-/

namespace CoreC

open Domain Value List

variable {ι φ : Type} [DecidableEq ι] [BEq φ]

namespace Value

variable [Domain ι φ]

/-- The operator takes the two values to the results. -/
inductive Operates (t : Target) (op : BinOp) : Value ι φ → Value ι φ → ValueSet ι φ → Prop where
  | ints {a b : ι} {left right : IntType} {out : ValueSet ι φ}
      (hout : intOperation t op a left b right = .ok out) :
      Operates t op (.int a left) (.int b right) out
  | floats {a b : φ} {left right : FloatKind} {out : ValueSet ι φ}
      (hout : floatOperation t op a left b right = .ok out) :
      Operates t op (.float a left) (.float b right) out
  | floatInt {a : φ} {b : ι} {kind : FloatKind} {type : IntType} {out : ValueSet ι φ}
      (hout : floatOperation t op a kind (floatOfInt kind b) kind = .ok out) :
      Operates t op (.float a kind) (.int b type) out
  | intFloat {a : ι} {b : φ} {kind : FloatKind} {type : IntType} {out : ValueSet ι φ}
      (hout : floatOperation t op (floatOfInt kind a) kind b kind = .ok out) :
      Operates t op (.int a type) (.float b kind) out
  | pointers {a b : Address} {size other : Nat} {out : ValueSet ι φ}
      (hout : pointerOperation t op a size b = .ok out) :
      Operates t op (.pointer a size) (.pointer b other) out
  | pointerNull {a : Address} {size : Nat} {b : ι} {type : IntType} {out : ValueSet ι φ}
      (hop : op.isRelational = true) (hout : pointerOperation t op a size .null = .ok out) :
      Operates t op (.pointer a size) (.int b type) out
  | nullPointer {a : ι} {type : IntType} {b : Address} {size : Nat} {out : ValueSet ι φ}
      (hop : op.isRelational = true) (hout : pointerOperation t op .null size b = .ok out) :
      Operates t op (.int a type) (.pointer b size) out
  | move {a : Address} {size : Nat} {b : ι} {type : IntType} {out : ValueSet ι φ}
      (hop : op = .add ∨ op = .sub)
      (hout : movePointer op a size (.int b type : Value ι φ) = .ok out) :
      Operates t op (.pointer a size) (.int b type) out
  | moveBy {a : ι} {type : IntType} {b : Address} {size : Nat} {out : ValueSet ι φ}
      (hop : op = .add) (hout : movePointer op b size (.int a type : Value ι φ) = .ok out) :
      Operates t op (.int a type) (.pointer b size) out
  | functions {f g : String} (hop : op = .eq ∨ op = .ne) (outcome : Bool) :
      Operates t op (.function f) (.function g) (ofOutcomes t [outcome])

theorem operates_of_ok {t : Target} {op : BinOp} {a b : Value ι φ} {out : ValueSet ι φ}
    (hout : operate t op a b = .ok out) : Operates t op a b out := by
  unfold operate at hout
  split at hout
  · cases hout
  · cases hout
  · exact .ints hout
  · exact .floatInt hout
  · exact .intFloat hout
  · exact .floats hout
  · exact .pointers hout
  · split at hout
    next hop => exact .move hop hout
    next =>
      split at hout
      next hop =>
        obtain ⟨_, -, hcompared⟩ := exists_of_bind_ok hout
        exact .pointerNull hop hcompared
      next => cases hout
  · split at hout
    next hop => exact .moveBy hop hout
    next =>
      split at hout
      next hop =>
        obtain ⟨_, -, hcompared⟩ := exists_of_bind_ok hout
        exact .nullPointer hop hcompared
      next => cases hout
  · split at hout
    next hop =>
      cases hout
      exact .functions (.inl hop) _
    next =>
      split at hout
      next hop =>
        cases hout
        exact .functions (.inr hop) _
      next => cases hout
  · cases hout

end Value

/-! ## How many results there are -/

/-- A condition on how many items a list has that goes over to what is gathered from items which
meet it. -/
structure Quota (ι φ : Type) [DecidableEq ι] [BEq φ] (Q : {α : Type} → List α → Prop) : Prop where
  one : ∀ {α : Type} (a : α), Q [a]
  of_length : ∀ {α β : Type} {items : List α} {others : List β}, others.length = items.length →
    Q items → Q others
  flatMap : ∀ {α β : Type} {items : List α} {f : α → List β}, Q items → (∀ a ∈ items, Q (f a)) →
    Q (items.flatMap f)
  ofList : ∀ {values : List (Value ι φ)}, Q values → Q (ValueSet.ofList values).items
  foldlM : ∀ {α : Type} {f : α → Except Fault (ValueSet ι φ)} {items : List α} {out : ValueSet ι φ},
    Q items → (∀ a ∈ items, ∀ values, f a = .ok values → Q values.items) →
    items.foldlM (fun values a => (f a).map values.union) .empty = .ok out → Q out.items

/-- The results of every operation of the domain are as many as the condition says. -/
structure Domain.Yields (ι φ : Type) [Domain ι φ] (Q : {α : Type} → List α → Prop) : Prop where
  arith : ∀ {t : Target} {type : IntType} {op : BinOp} {a b : ι} {results : List ι},
    arith φ t type op a b = .ok results → Q results
  compare : ∀ (op : BinOp) (a b : ι), Q (compare φ op a b)
  unary : ∀ {t : Target} {type : IntType} {op : UnOp} {a : ι} {results : List ι},
    unary φ t type op a = .ok results → Q results
  truth : ∀ a : ι, Q (truth φ a)
  cast : ∀ (t : Target) (source wanted : IntType) (a : ι), Q (cast φ t source wanted a)
  intOfFloat : ∀ {t : Target} {type : IntType} {x : φ} {results : List ι},
    intOfFloat t type x = .ok results → Q results
  floatArith : ∀ {kind : FloatKind} {op : BinOp} {x y : φ} {results : List φ},
    floatArith ι kind op x y = .ok results → Q results
  floatCompare : ∀ (op : BinOp) (x y : φ), Q (floatCompare ι op x y)
  floatUnary : ∀ {op : UnOp} {x : φ} {results : List φ}, floatUnary ι op x = .ok results → Q results
  floatTruth : ∀ x : φ, Q (floatTruth ι x)

variable {store : Store ι φ} {scalar : Scalar}

namespace Quota

variable {Q : {α : Type} → List α → Prop} (hQ : Quota ι φ Q) {t : Target} {op : BinOp} {v : Value ι φ}
  {s values out : ValueSet ι φ}

include hQ

theorem map {α : Type} {items : List α} (hitems : Q items) (f : α → Value ι φ) :
    Q (ValueSet.ofList (items.map f)).items := hQ.ofList (hQ.of_length (length_map f) hitems)

theorem lift₂ (hs : Q s.items) (hvalues : Q values.items) {f : Value ι φ → Value ι φ → Except Fault (ValueSet ι φ)}
    (hf : ∀ a b results, f a b = .ok results → Q results.items)
    (hout : s.lift₂ values f = .ok out) : Q out.items :=
  hQ.foldlM hs (fun a _ _ hresults => hQ.foldlM hvalues (fun b _ => hf a b) hresults) hout

variable [Domain ι φ]

theorem movePointer {address : Address} {size : Nat} {count : Value ι φ}
    (hout : movePointer op address size count = .ok out) : Q out.items := by
  obtain ⟨n, -, hsingle⟩ := exists_of_bind_ok hout
  cases hsingle
  exact hQ.one _

theorem pointerOperation {a b : Address} {size : Nat} (hout : Value.pointerOperation t op a size b = .ok out) :
    Q out.items := by
  unfold Value.pointerOperation at hout
  repeat' split at hout
  all_goals cases hout
  · exact hQ.one _
  · exact hQ.map (hQ.one _) _

variable (hdomain : Yields ι φ Q)

include hdomain

theorem castToInt {wanted : IntType} (hout : v.castToInt t wanted = .ok out) : Q out.items := by
  cases v with
  | int data type =>
    cases hout
    exact hQ.map (hdomain.cast t type wanted data) _
  | float data kind =>
    obtain ⟨results, hresults, rfl⟩ := exists_of_map_ok hout
    exact hQ.map (hdomain.intOfFloat hresults) _
  | uninitialized scalar =>
    cases hout
    exact hQ.one _
  | pointer | function => cases hout

theorem intOperation {a b : ι} {left right : IntType} (hout : intOperation t op a left b right = .ok out) :
    Q out.items := by
  obtain ⟨results, hresults, hlist⟩ := exists_of_bind_ok hout
  cases hlist
  apply hQ.ofList
  -- There is a pair for each choice of converted operands, and the operator has outcomes on each.
  have hpairs : Q ((cast φ t left (left.common right) a).flatMap fun x =>
      (cast φ t right (left.common right) b).map fun y => (x, y)) :=
    hQ.flatMap (hdomain.cast ..) fun x _ => hQ.of_length (length_map _) (hdomain.cast ..)
  rw [← flatMap_id']
  refine hQ.flatMap (hQ.of_length (length_of_mapM_ok hresults) hpairs) fun outcomes houtcomes => ?_
  obtain ⟨⟨x, y⟩, -, hrun⟩ := (mem_of_mapM_ok hresults).2 outcomes houtcomes
  dsimp only at hrun
  split at hrun
  · cases hrun
    exact hQ.of_length (length_map _) (hdomain.compare op x y)
  · obtain ⟨numbers, hnumbers, rfl⟩ := exists_of_map_ok hrun
    exact hQ.of_length (length_map _) (hdomain.arith hnumbers)

theorem floatOperation {a b : φ} {left right : FloatKind}
    (hout : Value.floatOperation t op a left b right = .ok out) : Q out.items := by
  unfold Value.floatOperation at hout
  dsimp only at hout
  split at hout
  · cases hout
    exact hQ.map (hdomain.floatCompare op _ _) _
  · obtain ⟨results, hresults, rfl⟩ := exists_of_map_ok hout
    exact hQ.map (hdomain.floatArith hresults) _

theorem operate {left right : Value ι φ} (hout : operate t op left right = .ok out) : Q out.items := by
  cases operates_of_ok hout with
  | ints hout => exact hQ.intOperation hdomain hout
  | floats hout | floatInt hout | intFloat hout => exact hQ.floatOperation hdomain hout
  | pointers hout | pointerNull _ hout | nullPointer _ hout => exact hQ.pointerOperation hout
  | move _ hout | moveBy _ hout => exact hQ.movePointer hout
  | functions => exact hQ.map (hQ.one _) _

theorem truth {outcomes : List Bool} (hout : v.truth = .ok outcomes) : Q outcomes := by
  cases v <;> cases hout
  · exact hdomain.truth _
  · exact hdomain.floatTruth _
  · exact hQ.one _
  · exact hQ.one _

theorem operateUnary {op : UnOp} (hout : v.operateUnary t op = .ok out) : Q out.items := by
  unfold Value.operateUnary at hout
  split at hout
  · cases hout
  · split at hout
    · obtain ⟨outcomes, houtcomes, rfl⟩ := exists_of_map_ok hout
      exact hQ.map (hQ.of_length (length_map _) (hQ.truth hdomain houtcomes)) _
    · split at hout
      · obtain ⟨results, hresults, rfl⟩ := exists_of_map_ok hout
        exact hQ.map (hdomain.unary hresults) _
      · obtain ⟨results, hresults, rfl⟩ := exists_of_map_ok hout
        exact hQ.map (hdomain.floatUnary hresults) _
      · cases hout

theorem convertValue (hout : store.convertValue scalar v = .ok out) : Q out.items := by
  unfold Store.convertValue at hout
  split at hout
  · cases hout
    exact hQ.one _
  · obtain ⟨number, -, hsingle⟩ := exists_of_bind_ok hout
    cases hsingle
    exact hQ.one _
  · exact hQ.castToInt hdomain hout
  · obtain ⟨cast, -, rfl⟩ := exists_of_map_ok hout
    exact hQ.one _
  · cases hout
    exact hQ.one _
  · obtain ⟨n, -, hsingle⟩ := exists_of_bind_ok hout
    split at hsingle <;> cases hsingle <;> exact hQ.one _
  · cases hout
    exact hQ.one _
  · cases hout
    exact hQ.one _
  · split at hout <;> cases hout
    exact hQ.one _
  · cases hout

theorem convert (hvalues : Q values.items) (hout : store.convert scalar values = .ok out) :
    Q out.items :=
  hQ.foldlM hvalues (fun _ _ _ hconverted => hQ.convertValue hdomain hconverted) hout

end Quota

end CoreC
