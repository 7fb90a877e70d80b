import CoreC.Proofs.Domain.Polarity
import CoreC.Proofs.Value.Covering

/-! # Operators of the abstract domains cover the exact ones

An operator on abstract integers has to allow for what the exact operator makes of any
integers that they stand for. Both convert their operands to a common type first, so a domain
has to cover the conversion, and then one operator on two integers of one type. The bounded
domain covers every operator and fails only where the exact one does. The sign domain covers
every operator on a two's-complement target, unless the exact result overflows; it may fail
where the exact operator does not, since a divisor that it does not know might be zero.
-/

namespace CoreC

open Value List Domain ValueSet Target

open Domain.Abstraction (Represents)

/-- The domain covers an operator on two integers of one type: the outcome of a comparison is
among the abstract outcomes, and an abstract result stands for the exact one. -/
structure Domain.CoversOn (ι φ : Type) [Domain ι φ] [Abstraction ι φ] (t : Target)
    (op : BinOp) (type : IntType) (x y : Int) : Prop where
  ofBool : ∀ b : Bool, Represents φ t .int (Domain.ofInt φ (t.reduce .int (if b then 1 else 0)) : ι)
    (t.reduce .int (if b then 1 else 0))
  compare : ∀ {a b : ι}, op.isRelational = true → Represents φ t type a x → Represents φ t type b y →
    op.holds (some (Ord.compare x y)) ∈ Domain.compare φ op a b
  arith : ∀ {a b : ι} {n : Int} {results : List ι}, Represents φ t type a x → Represents φ t type b y →
    t.arith type op x y = .ok n → Domain.arith φ t type op a b = .ok results →
    ∃ c ∈ results, Represents φ t type c n

namespace Value

variable {ι φ : Type} [Domain ι φ]

/-- The outcomes of an operator on two integers of the common type. -/
def commonOperation (t : Target) (op : BinOp) (type : IntType) (x y : ι) :
    Except Fault (List (Value ι φ)) :=
  if op.isRelational then .ok ((Domain.compare φ op x y).map (ofBool t))
  else (Domain.arith φ t type op x y).map fun results => results.map (.int · type)

variable {outcomes : List (Value ι φ)} {type : IntType}

theorem commonOperation_eq_ok {t : Target} {op : BinOp} {x y : ι}
    (hrun : commonOperation t op type x y = .ok outcomes) :
    op.isRelational = true ∧ outcomes = (Domain.compare φ op x y).map (ofBool t) ∨
      op.isRelational = false ∧ ∃ results, Domain.arith φ t type op x y = .ok results ∧
        outcomes = results.map (.int · type) := by
  unfold commonOperation at hrun
  split at hrun
  next hop =>
    cases hrun
    exact .inl ⟨hop, rfl⟩
  next hop =>
    obtain ⟨results, hresults, rfl⟩ := exists_of_map_ok hrun
    exact .inr ⟨by simpa using hop, results, hresults, rfl⟩

theorem integral_commonOperation {t : Target} {op : BinOp} {x y : ι}
    (hrun : commonOperation t op type x y = .ok outcomes) :
    ∀ v ∈ outcomes, v.Integral := by
  intro v hv
  obtain ⟨-, rfl⟩ | ⟨-, results, -, rfl⟩ := commonOperation_eq_ok hrun
  · obtain ⟨b, -, rfl⟩ := mem_map.mp hv
    trivial
  · obtain ⟨n, -, rfl⟩ := mem_map.mp hv
    trivial

section Pairs

variable [DecidableEq ι] [BEq φ] {t : Target} {op : BinOp} {a b : ι} {left right : IntType} {s : ValueSet ι φ}

/-- An operator succeeds if it does so on every pair of converted operands. -/
theorem exists_intOperation (hcommon : ∀ x ∈ Domain.cast φ t left (left.common right) a,
      ∀ y ∈ Domain.cast φ t right (left.common right) b,
        ∃ outcomes : List (Value ι φ), commonOperation t op (left.common right) x y = .ok outcomes) :
    ∃ s : ValueSet ι φ, intOperation t op a left b right = .ok s := by
  have hpairs : ∀ pair ∈ (Domain.cast φ t left (left.common right) a).flatMap (fun x =>
      (Domain.cast φ t right (left.common right) b).map fun y => (x, y)),
      ∃ outcomes : List (Value ι φ),
        commonOperation t op (left.common right) pair.1 pair.2 = .ok outcomes := by
    intro pair hpair
    obtain ⟨x, hx, hpair⟩ := mem_flatMap.mp hpair
    obtain ⟨y, hy, rfl⟩ := mem_map.mp hpair
    exact hcommon x hx y hy
  obtain ⟨results, hresults⟩ := exists_mapM_ok hpairs
  refine ⟨.ofList results.flatten, ?_⟩
  exact congrArg (· >>= fun results => pure (ofList results.flatten)) hresults

/-- The set holds the outcomes for every pair of converted operands, and nothing else. -/
theorem intOperation_eq_ok (hrun : intOperation t op a left b right = .ok s) :
    ∃ values, s = .ofList values ∧ (∀ x ∈ Domain.cast φ t left (left.common right) a,
        ∀ y ∈ Domain.cast φ t right (left.common right) b,
          ∃ outcomes, commonOperation t op (left.common right) x y = .ok outcomes ∧
            ∀ v ∈ outcomes, v ∈ values) ∧
      ∀ v ∈ values, ∃ x ∈ Domain.cast φ t left (left.common right) a,
        ∃ y ∈ Domain.cast φ t right (left.common right) b,
          ∃ outcomes, commonOperation t op (left.common right) x y = .ok outcomes ∧ v ∈ outcomes := by
  obtain ⟨results, hresults, hs⟩ := exists_of_bind_ok hrun
  cases hs
  obtain ⟨hall, honly⟩ := mem_of_mapM_ok hresults
  refine ⟨results.flatten, rfl, ?_, ?_⟩
  · intro x hx y hy
    obtain ⟨outcomes, houtcomes, hpair⟩ :=
      hall (x, y) (mem_flatMap.mpr ⟨x, hx, mem_map_of_mem hy⟩)
    exact ⟨outcomes, hpair, fun v hv => mem_flatten.mpr ⟨outcomes, houtcomes, hv⟩⟩
  · intro v hv
    obtain ⟨outcomes, houtcomes, hv⟩ := mem_flatten.mp hv
    obtain ⟨pair, hpair, hrun⟩ := honly outcomes houtcomes
    obtain ⟨x, hx, hpair⟩ := mem_flatMap.mp hpair
    obtain ⟨y, hy, rfl⟩ := mem_map.mp hpair
    exact ⟨x, hx, y, hy, outcomes, hrun, hv⟩

end Pairs

section Covers

variable [Abstraction ι φ] {t : Target} {op : BinOp} {x y : Int}

theorem stands_commonOperation {a b : ι} (hcovers : CoversOn ι φ t op type x y)
    (ha : Represents φ t type a x) (hb : Represents φ t type b y)
    (houtcomes : commonOperation t op type a b = .ok outcomes)
    {known : List (Value Int Double)} (hknown : commonOperation t op type x y = .ok known) :
    ∀ v ∈ known, ∃ w ∈ outcomes, w.Stands t v := by
  obtain ⟨hop, rfl⟩ | ⟨hop, results, hresults, rfl⟩ := commonOperation_eq_ok houtcomes
  · obtain ⟨-, rfl⟩ | ⟨hop', -⟩ := commonOperation_eq_ok hknown
    · intro v hv
      cases mem_singleton.mp hv
      refine ⟨_, mem_map_of_mem (hcovers.compare hop ha hb), ?_⟩
      exact .int (hcovers.ofBool _)
    · cases hop.symm.trans hop'
  · obtain ⟨hop', -⟩ | ⟨-, known, hexact, rfl⟩ := commonOperation_eq_ok hknown
    · cases hop.symm.trans hop'
    · obtain ⟨n, hn, rfl⟩ := exists_of_map_ok hexact
      obtain ⟨c, hc, hrepresents⟩ := hcovers.arith ha hb hn hresults
      intro v hv
      cases mem_singleton.mp hv
      exact ⟨_, mem_map_of_mem hc, .int hrepresents⟩

variable [DecidableEq ι] [BEq φ] {a b : ι} {left right : IntType} {s : ValueSet ι φ}
  {exact : ValueSet Int Double}

/-- An operator covers the exact one if the domain covers the conversion of both operands, and
the operator on two integers of the common type. -/
theorem covers_intOperation (hleft : ∃ c ∈ Domain.cast φ t left (left.common right) a,
      Represents φ t (left.common right) c (t.reduce (left.common right) x))
    (hright : ∃ d ∈ Domain.cast φ t right (left.common right) b,
      Represents φ t (left.common right) d (t.reduce (left.common right) y))
    (hcovers : CoversOn ι φ t op (left.common right) (t.reduce (left.common right) x)
      (t.reduce (left.common right) y))
    (hs : intOperation t op a left b right = .ok s)
    (hexact : intOperation t op x left y right = .ok exact) : s.Covers t exact := by
  obtain ⟨values, rfl, hpairs, honly⟩ := intOperation_eq_ok hs
  obtain ⟨known, rfl, -, hknown⟩ := intOperation_eq_ok hexact
  apply Covers.ofList
  · intro v hv
    obtain ⟨c, -, d, -, outcomes, hrun, hmem⟩ := honly v hv
    exact integral_commonOperation hrun v hmem
  · intro v hv
    obtain ⟨x', hx', y', hy', outcomes, hrun, hmem⟩ := hknown v hv
    cases mem_singleton.mp hx'
    cases mem_singleton.mp hy'
    obtain ⟨c, hc, hcx⟩ := hleft
    obtain ⟨d, hd, hdy⟩ := hright
    obtain ⟨results, hresults, hsub⟩ := hpairs c hc d hd
    obtain ⟨w, hw, hstands⟩ := stands_commonOperation hcovers hcx hdy hresults hrun v hmem
    exact ⟨w, hsub w hw, hstands⟩

end Covers

end Value

namespace Bounded

variable {t : Target} {type : IntType} {x y n : Int} {a b : Bounded}

theorem cast_represents {source : IntType} (ha : a.Represents t source x) (wanted : IntType) :
    ∃ c, Domain.cast Sign t source wanted a = [c] ∧ c.Represents t wanted (t.reduce wanted x) := by
  rcases ha with rfl | ⟨rfl, -⟩
  · exact ⟨.top, rfl, .inl rfl⟩
  · exact ⟨_, rfl, represents_ofInt (t.inRange_reduce wanted x)⟩

variable {op : BinOp}

/-- The bounded operator has a result where the exact one has, and the result stands for it. -/
theorem arith_represents (ha : a.Represents t type x) (hb : b.Represents t type y)
    (hn : t.arith type op x y = .ok n) :
    ∃ c, Domain.arith Sign t type op a b = .ok [c] ∧ c.Represents t type n := by
  have hknown : ¬(op.divides = true ∧ b = .known 0) := by
    rintro ⟨hdivides, rfl⟩
    rcases hb with htop | ⟨hb, -⟩
    · cases htop
    · cases hb
      exact ne_zero_of_arith_ok hdivides hn rfl
  change ∃ c, arith t type op a b = .ok [c] ∧ _
  unfold arith
  rcases ha with rfl | ⟨rfl, -⟩
  · exact ⟨.top, by simp [hknown], .inl rfl⟩
  · rcases hb with rfl | ⟨rfl, -⟩
    · exact ⟨.top, by simp, .inl rfl⟩
    · exact ⟨.ofInt n, by simp [hn, Except.map], represents_ofInt (inRange_arith hn)⟩

theorem mem_compare (ha : a.Represents t type x) (hb : b.Represents t type y) :
    op.holds (some (Ord.compare x y)) ∈ Domain.compare Sign op a b := by
  change _ ∈ compare op a b
  rcases ha with rfl | ⟨rfl, -⟩
  · cases op.holds (some (Ord.compare x y)) <;> simp [compare]
  · rcases hb with rfl | ⟨rfl, -⟩
    · cases op.holds (some (Ord.compare x y)) <;> simp [compare]
    · exact mem_singleton_self _

theorem coversOn (t : Target) (op : BinOp) (type : IntType) (x y : Int) :
    CoversOn Bounded Sign t op type x y where
  ofBool b := represents_ofInt (t.inRange_reduce _ _)
  compare _ := mem_compare
  arith ha hb hn hresults := by
    obtain ⟨c, hc, hrepresents⟩ := arith_represents ha hb hn
    cases hc.symm.trans hresults
    exact ⟨c, mem_singleton_self c, hrepresents⟩

/-- Where the exact operator succeeds on the converted operands, so does the bounded one. -/
theorem exists_commonOperation {left right : IntType} {exact : ValueSet Int Double}
    (ha : a.Represents t (left.common right) (t.reduce (left.common right) x))
    (hb : b.Represents t (left.common right) (t.reduce (left.common right) y))
    (hexact : intOperation t op x left y right = .ok exact) :
    ∃ outcomes : List (Value Bounded Sign),
      commonOperation t op (left.common right) a b = .ok outcomes := by
  obtain ⟨_, _, hpairs, _⟩ := intOperation_eq_ok hexact
  obtain ⟨known, hknown, -⟩ := hpairs _ (mem_singleton_self _) _ (mem_singleton_self _)
  unfold commonOperation
  obtain ⟨hop, -⟩ | ⟨hop, results, hresults, -⟩ := commonOperation_eq_ok hknown
  · exact ⟨_, by rw [if_pos hop]⟩
  · obtain ⟨n, hn, rfl⟩ := exists_of_map_ok hresults
    obtain ⟨c, hc, -⟩ := arith_represents ha hb hn
    exact ⟨[.int c (left.common right)], by simp [hop, hc, Except.map]⟩

theorem mem_truth (ha : a.Represents t type x) : (x != 0) ∈ truth a := by
  rcases ha with rfl | ⟨rfl, -⟩
  · cases x != 0 <;> simp [truth]
  · exact mem_singleton_self _

theorem unary_represents {op : UnOp} (ha : a.Represents t type x)
    (hn : t.arithUnary type op x = .ok n) :
    ∃ c, Domain.unary Sign t type op a = .ok [c] ∧ c.Represents t type n := by
  rcases ha with rfl | ⟨rfl, hx⟩
  · exact ⟨.top, rfl, .inl rfl⟩
  · exact ⟨.ofInt n, congrArg (Except.map _) hn, represents_ofInt (inRange_arithUnary hx hn)⟩

section Covers

variable {left right : IntType} {exact : ValueSet Int Double}

/-- One result on either side, of which the one stands for the other. -/
theorem covers_singleton (ha : a.Represents t type n) :
    (ofList ([a].map (.int · type)) : ValueSet Bounded Sign).Covers t
      (.ofList ([n].map (.int · type))) := by
  apply Covers.ofList <;> intro v hv <;> cases mem_singleton.mp hv
  · trivial
  · exact ⟨_, mem_singleton_self _, .int ha⟩

variable (ha : a.Represents t left x)

include ha

theorem exists_operate (hb : b.Represents t right y)
    (hexact : operate t op (.int x left) (.int y right) = .ok exact) :
    ∃ s : ValueSet Bounded Sign,
      operate t op (.int a left) (.int b right) = .ok s ∧ s.Covers t exact := by
  obtain ⟨c, hc, hcx⟩ := cast_represents ha (left.common right)
  obtain ⟨d, hd, hdy⟩ := cast_represents hb (left.common right)
  obtain ⟨s, hs⟩ : ∃ s : ValueSet Bounded Sign, intOperation t op a left b right = .ok s := by
    apply exists_intOperation
    intro c' hc' d' hd'
    rw [hc] at hc'
    rw [hd] at hd'
    cases mem_singleton.mp hc'
    cases mem_singleton.mp hd'
    exact exists_commonOperation hcx hdy hexact
  exact ⟨s, hs, covers_intOperation ⟨c, by simp [hc], hcx⟩ ⟨d, by simp [hd], hdy⟩ (coversOn ..)
    hs hexact⟩

theorem exists_operateUnary {op : UnOp} (hexact : operateUnary t op (.int x left) = .ok exact) :
    ∃ s : ValueSet Bounded Sign, operateUnary t op (.int a left) = .ok s ∧ s.Covers t exact := by
  unfold operateUnary at hexact ⊢
  dsimp only at hexact ⊢
  split at hexact
  next hop =>
    cases hexact
    rw [if_pos hop]
    refine ⟨_, rfl, Covers.ofList ?_ ?_⟩
    · intro v hv
      obtain ⟨outcome, -, rfl⟩ := mem_map.mp hv
      trivial
    · intro v hv
      cases mem_singleton.mp hv
      refine ⟨_, mem_map_of_mem (mem_map_of_mem (mem_truth ha)), ?_⟩
      exact .int (represents_ofInt (t.inRange_reduce _ _))
  next hop =>
    obtain ⟨results, hresults, rfl⟩ := exists_of_map_ok hexact
    obtain ⟨n, hn, rfl⟩ := exists_of_map_ok hresults
    obtain ⟨c, hc, hrepresents⟩ := unary_represents ha hn
    rw [if_neg hop, hc]
    exact ⟨_, rfl, covers_singleton hrepresents⟩

theorem exists_castToInt {wanted : IntType}
    (hexact : castToInt t wanted (.int x left) = .ok exact) :
    ∃ s : ValueSet Bounded Sign, castToInt t wanted (.int a left) = .ok s ∧ s.Covers t exact := by
  cases hexact
  obtain ⟨c, hc, hrepresents⟩ := cast_represents ha wanted
  refine ⟨_, rfl, ?_⟩
  rw [hc]
  exact covers_singleton hrepresents

end Covers

/-- Bounded integers cover the exact integers that they stand for: through every operator, every
conversion and every test, what the exact integers give is among what the bounded ones give,
and the bounded ones never fail where the exact ones succeed. -/
theorem operations_cover_exact (t : Target) {left right : IntType} {x y : Int} {a b : Bounded}
    (ha : a.Represents t left x) (hb : b.Represents t right y) :
    (∀ (op : BinOp) (exact : ValueSet Int Double),
      operate t op (.int x left) (.int y right) = .ok exact →
      ∃ s : ValueSet Bounded Sign,
        operate t op (.int a left) (.int b right) = .ok s ∧ s.Covers t exact) ∧
    (∀ (op : UnOp) (exact : ValueSet Int Double), operateUnary t op (.int x left) = .ok exact →
      ∃ s : ValueSet Bounded Sign, operateUnary t op (.int a left) = .ok s ∧ s.Covers t exact) ∧
    (∀ (wanted : IntType) (exact : ValueSet Int Double),
      castToInt t wanted (.int x left) = .ok exact →
      ∃ s : ValueSet Bounded Sign, castToInt t wanted (.int a left) = .ok s ∧ s.Covers t exact) ∧
    ∀ outcomes : List Bool, (int x left : Value Int Double).truth = .ok outcomes →
      ∃ results, (int a left : Value Bounded Sign).truth = .ok results ∧
        ∀ outcome ∈ outcomes, outcome ∈ results := by
  refine ⟨fun op exact => exists_operate ha hb, fun op exact => exists_operateUnary ha,
    fun wanted exact => exists_castToInt ha, ?_⟩
  intro outcomes houtcomes
  cases houtcomes
  refine ⟨_, rfl, fun outcome houtcome => ?_⟩
  cases mem_singleton.mp houtcome
  exact mem_truth ha

/-- Of two bytes only one is small enough to be known, and their sum, which wraps, is covered. -/
theorem wrapped_sum_covered : ofInt 200 = .top ∧ ofInt 100 = .known 100 ∧
      operate .std .add (.int 200 .unsignedChar) (.int 100 .unsignedChar) =
        .ok (.ofList [.int 44 .unsignedChar] : ValueSet Int Double) ∧
      ∃ s : ValueSet Bounded Sign,
        operate .std .add (.int .top .unsignedChar) (.int (.known 100) .unsignedChar) = .ok s ∧
          s.Covers .std (.ofList [.int 44 .unsignedChar]) := by
  have hexact : operate .std .add (.int 200 .unsignedChar) (.int 100 .unsignedChar) =
      .ok (.ofList [.int 44 .unsignedChar] : ValueSet Int Double) := by rfl
  exact ⟨rfl, rfl, hexact, (operations_cover_exact .std (.inl rfl) (by decide)).1 .add _ hexact⟩

end Bounded

namespace Sign

variable {t : Target} {op : BinOp} {type : IntType} {x y : Int} {a b : Sign}

theorem coversOn (htwos : t.complement = .twos) (hx : t.InRange type x) (hy : t.InRange type y)
    (hfits : t.Fits type op x y) : CoversOn Sign Sign t op type x y where
  ofBool _ := .inr rfl
  compare := mem_compare
  arith ha hb hn hresults := exists_arith htwos hx hy hfits hn ha hb hresults

/-- The operator fails only on a divisor that is known to be zero. -/
theorem exists_commonOperation (hdivisor : ¬(op.divides = true ∧ b = .zero)) :
    ∃ outcomes : List (Value Sign Sign), commonOperation t op type a b = .ok outcomes := by
  unfold commonOperation
  split
  · exact ⟨_, rfl⟩
  · change ∃ outcomes, (arith type.signed op a b).map _ = .ok outcomes
    rw [arith, if_neg hdivisor]
    exact ⟨_, rfl⟩

/-- On a two's-complement target signs cover the exact integers that they stand for: unless the
exact result overflows, one of the signs of the result is right. The operator fails only on a
divisor that may be zero. -/
theorem operate_covers_exact (htwos : t.complement = .twos) {left right : IntType}
    (hx : t.InRange left x) (hy : t.InRange right y) (ha : a.Represents x) (hb : b.Represents y)
    (hfits : t.Fits (left.common right) op (t.reduce (left.common right) x)
      (t.reduce (left.common right) y))
    {exact : ValueSet Int Double}
    (hexact : operate t op (.int x left) (.int y right) = .ok exact) :
    (∀ s : ValueSet Sign Sign, operate t op (.int a left) (.int b right) = .ok s →
      s.Covers t exact) ∧
    ((op.divides = true → .zero ∉ cast t right (left.common right) b) →
      ∃ s : ValueSet Sign Sign, operate t op (.int a left) (.int b right) = .ok s) := by
  constructor
  · intro s hs
    have hcovers := coversOn htwos (t.inRange_reduce _ x) (t.inRange_reduce _ y) hfits
    exact covers_intOperation (exists_cast htwos hx ha) (exists_cast htwos hy hb) hcovers hs hexact
  · intro hdivisor
    apply exists_intOperation
    intro c hc d hd
    apply exists_commonOperation
    rintro ⟨hdivides, rfl⟩
    exact hdivisor hdivides hd

/-- A negative byte becomes positive in an unsigned type, and its remainder is covered. -/
theorem wrapped_remainder_covered : ofInt (-1) = .minus ∧ ofInt 7 = .plus ∧
      operate .gcc .mod (.int (-1) .char) (.int 7 ⟨.int, false⟩) =
        .ok (.ofList [.int 3 ⟨.int, false⟩] : ValueSet Int Double) ∧
      ∃ s : ValueSet Sign Sign,
        operate .gcc .mod (.int .minus .char) (.int .plus ⟨.int, false⟩) = .ok s ∧
          s.Covers .gcc (.ofList [.int 3 ⟨.int, false⟩]) := by
  have hexact : operate .gcc .mod (.int (-1) .char) (.int 7 ⟨.int, false⟩) =
      .ok (.ofList [.int 3 ⟨.int, false⟩] : ValueSet Int Double) := by rfl
  obtain ⟨hcovers, hok⟩ := operate_covers_exact (a := .minus) (b := .plus) rfl (by decide) (by decide)
    (.inr rfl) (.inr rfl) (by decide) hexact
  obtain ⟨s, hs⟩ := hok fun _ => by decide
  exact ⟨rfl, rfl, hexact, s, hs, hcovers s hs⟩

end Sign

end CoreC
