/-
  SymbolicAlgebra.Proofs.Refusals.Division — why values without grids are not always divided.

  Trees without grids are added, subtracted and multiplied whatever they are (`Proofs.Totality`). There
  are two reasons not to divide by one. A divisor that is zero is refused, and it is known at once: a
  product is zero only if one of its factors is (`isZero_product`), so no division on the way through
  the factors of a divisor meets a zero that was not seen before. And a divisor with a sum in it may be
  refused as unsupported (`SumInside`).

  Both together are `arithmetic_refusals`.
-/

import SymbolicAlgebra.Proofs.Totality
import SymbolicAlgebra.Proofs.Depth
import SymbolicAlgebra.Proofs.Rational

namespace SymbolicAlgebra.Expr

variable {α : Type}

/-- The division is unsupported, and there is a sum in the divisor. -/
structure SumInside (b : Expr α) (x : ArithError) : Prop where
  error : ∃ k l, x = .unsupported .div k l
  sum : ∃ ts, Occurs (.sum ts) b

theorem SumInside.of_factor {fs : List (Expr α)} {f : Expr α} {x : ArithError} (hf : f ∈ fs) (h : SumInside f x) :
    SumInside (.product fs) x := by
  obtain ⟨ts, hts⟩ := h.sum
  exact ⟨h.error, ts, .child hf hts⟩

variable [Scalar α] {a b : Expr α}

theorem div_zero_gridless (ha : Gridless a) (hb : Gridless b) (hz : b.isZero = true) :
    a.div b = .error .divisionByZero := by
  unfold div
  split
  · exact absurd rfl ha.kind
  · exact absurd rfl hb.kind
  all_goals
    rw [if_pos hz]
    rfl

/-- A sum is divided term by term. -/
theorem div_terms {allowed : ArithError → Prop} (hz : b.isZero = false) (hk : b.kind ≠ .sum) (hb : Gridless b)
    (h : ∀ a, a.kind ≠ .sum → Gridless a → Ends allowed Gridless (a.div b)) (ha : Gridless a) :
    Ends allowed Gridless (a.div b) := by
  induction a with
  | sum ts ih =>
    have hts := Everywhere.sum_iff.mp ha
    have terms : Ends allowed Gridless (do sumOf (← ts.mapM fun t => div t b)) :=
      (Ends.mapM fun t ht => ih t ht (hts t ht)).bind fun us hus => (sumOf_gridless hus).allow fun _ hx => hx.elim
    cases b with
    | matrix g => exact absurd rfl hb.kind
    | sum us => exact absurd rfl hk
    | _ =>
      unfold div
      rw [hz]
      exact terms
  | matrix g => exact absurd rfl ha.kind
  | _ => exact h _ (by simp [kind]) ha

theorem div_number_gridless {w : α} (hw : Scalar.nearZero w = false) (ha : Gridless a) :
    Succeeds Gridless (a.div (.const w)) := by
  have hz : (const w).isZero = false := hw
  refine div_terms hz (by simp [kind]) (.const w) (fun a hk ha => ?_) ha
  cases a with
  | const v =>
    unfold div
    rw [hz]
    exact .const _
  | var m =>
    unfold div
    rw [hz]
    exact Everywhere.ofMonomial fun _ _ => trivial
  | sum ts => exact absurd rfl hk
  | product fs =>
    unfold div
    rw [hz]
    exact Everywhere.mulConstant (Everywhere.product_iff.mp ha)
  | matrix g => exact absurd rfl ha.kind

/-- Nothing is divided by a sum, except a number that is zero. -/
theorem div_sum_gridless {us : List (Expr α)} (hz : (sum us).isZero = false) (ha : Gridless a) :
    Ends (SumInside (.sum us)) Gridless (a.div (.sum us)) := by
  have unsupported : ∀ k, SumInside (.sum us) (.unsupported .div k .sum) := fun k => ⟨⟨_, _, rfl⟩, us, .root⟩
  cases a with
  | const v =>
    unfold div
    rw [hz]
    by_cases hv : Scalar.nearZero v = true
    · rw [hv]
      exact .const v
    · rw [Bool.eq_false_iff.mpr hv]
      exact unsupported _
  | matrix g => exact absurd rfl ha.kind
  | _ =>
    unfold div
    rw [hz]
    exact unsupported _

theorem div_product_gridless {gs : List (Expr α)} (hz : (product gs).isZero = false)
    (h : ∀ g ∈ gs, ∀ a, Gridless a → Ends (SumInside g) Gridless (a.div g)) (hb : Gridless (.product gs)) (ha : Gridless a) :
    Ends (SumInside (.product gs)) Gridless (a.div (.product gs)) := by
  have factors : ∀ q, Gridless q → Ends (SumInside (.product gs)) Gridless (gs.foldlM (fun q g => q.div g) q) :=
    fun q hq => Ends.foldlM hq fun q hq g hg => (h g hg q hq).allow fun _ => .of_factor hg
  refine div_terms hz (by simp [kind]) hb (fun a hk ha => ?_) ha
  cases a with
  | const v =>
    unfold div
    rw [hz]
    by_cases hv : Scalar.nearZero v = true
    · rw [hv]
      exact .const v
    · rw [Bool.eq_false_iff.mpr hv]
      exact factors _ (.const v)
  | var m =>
    unfold div
    rw [hz]
    exact factors _ (Everywhere.ofMonomial fun _ _ => trivial)
  | sum ts => exact absurd rfl hk
  | product fs =>
    unfold div
    rw [hz]
    exact factors _ ha
  | matrix g => exact absurd rfl ha.kind

theorem div_ends (ha : Gridless a) (hb : Gridless b) (hz : b.isZero = false) :
    Ends (SumInside b) Gridless (a.div b) := by
  induction b generalizing a with
  | const w => exact (div_number_gridless hz ha).allow fun _ hx => hx.elim
  | var n => exact (div_monomial_gridless hz ha).allow fun _ hx => hx.elim
  | sum us => exact div_sum_gridless hz ha
  | product gs ih =>
    have hgs := Everywhere.product_iff.mp hb
    refine div_product_gridless hz (fun g hg a ha => ih g hg ha (hgs g hg) ?_) hb ha
    rw [isZero_product] at hz
    exact Bool.eq_false_iff.mpr (List.any_eq_false.mp hz g hg)
  | matrix g => exact absurd rfl hb.kind

/-- Addition, subtraction and multiplication are never refused without grids. A division is refused as one
    by zero if and only if the divisor is zero, and else only as unsupported, for a sum in the divisor. -/
theorem arithmetic_refusals (ha : Gridless a) (hb : Gridless b) :
    (∃ c, a.add b = .ok c ∧ Gridless c) ∧ (∃ c, a.sub b = .ok c ∧ Gridless c) ∧ (∃ c, a.mul b = .ok c ∧ Gridless c) ∧
      (a.div b = .error .divisionByZero ↔ b.isZero = true) ∧
      (b.isZero = false → ∀ x, a.div b = .error x → (∃ k l, x = .unsupported .div k l) ∧ ∃ ts, Occurs (.sum ts) b) := by
  have unsupported : b.isZero = false → ∀ x, a.div b = .error x → SumInside b x := by
    intro hz x hx
    have hends := div_ends ha hb hz
    rwa [hx] at hends
  refine ⟨(add_gridless ha hb).eq_ok, (sub_gridless ha hb).eq_ok, (mul_gridless ha hb).eq_ok, ⟨fun h => ?_, ?_⟩, ?_⟩
  · by_contra hz
    obtain ⟨k, l, hx⟩ := (unsupported (Bool.eq_false_iff.mpr hz) _ h).error
    cases hx
  · exact div_zero_gridless ha hb
  · intro hz x hx
    exact ⟨(unsupported hz x hx).error, (unsupported hz x hx).sum⟩

/-- `x` divided by `y * (x + 1)`. -/
theorem arithmetic_refusals_sum_inside :
    div (.var ⟨"x", 1, 1⟩) (.product [.var ⟨"y", 1, 1⟩, .sum [.var ⟨"x", 1, 1⟩, .const (1 : ℚ)]]) =
        .error (.unsupported .div .product .sum) ∧
      ∃ ts, Occurs (.sum ts) (.product [.var ⟨"y", 1, 1⟩, .sum [.var ⟨"x", 1, 1⟩, .const (1 : ℚ)]]) := by
  have ha : Gridless (.var ⟨"x", 1, (1 : ℚ)⟩) := .var trivial
  have hb : Gridless (.product [.var ⟨"y", 1, 1⟩, .sum [.var ⟨"x", 1, 1⟩, .const (1 : ℚ)]]) := by
    simp [Gridless]
  have hdiv : div (.var ⟨"x", 1, 1⟩) (.product [.var ⟨"y", 1, 1⟩, .sum [.var ⟨"x", 1, 1⟩, .const (1 : ℚ)]]) =
      .error (.unsupported .div .product .sum) := by cbv
  exact ⟨hdiv, ((arithmetic_refusals ha hb).2.2.2.2 (by cbv) _ hdiv).2⟩

end SymbolicAlgebra.Expr
