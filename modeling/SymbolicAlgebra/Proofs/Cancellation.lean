/-
  SymbolicAlgebra.Proofs.Cancellation — a value minus itself.

  Negation keeps the names of a tree and the factors of a product apart from their numbers
  (`freeNames_neg`, `splitCoefficient_negFactors`), so a node and its negation are found to be like, and cancel
  (`Cancels`). A sum is subtracted from itself term by term: the term that comes next is still the first
  with its names, and goes (`addTerm_neg`).

  That takes terms whose negations are not dropped as zero. A number, a monomial or a product is as good
  as zero if its negation is (`isZero_neg`). A sum is not: whether it is seen to be zero depends on the
  signs of the coefficients in it (`sub_self_remains`), so `sub_self_isZero` asks for it.
-/

import SymbolicAlgebra.Proofs.Depth
import SymbolicAlgebra.Proofs.Shapes.Programs
import SymbolicAlgebra.Proofs.Values

namespace SymbolicAlgebra.Expr

/-! ## What negation keeps -/

section
variable {α : Type} [Scalar α]

omit [Scalar α] in
theorem freeNamesAll_congr {es fs : List (Expr α)} (h : es.map freeNames = fs.map freeNames) :
    freeNamesAll es = freeNamesAll fs := by
  induction es generalizing fs with
  | nil =>
    cases fs with
    | nil => rfl
    | cons f fs => simp at h
  | cons e es ih =>
    cases fs with
    | nil => simp at h
    | cons f fs =>
      obtain ⟨he, hes⟩ := List.cons.inj h
      rw [freeNamesAll, freeNamesAll, he, ih hes]

theorem freeNames_flipSign (e : Expr α) : e.flipSign.freeNames = e.freeNames := by
  cases e <;> rfl

theorem freeNames_neg (e : Expr α) : e.neg.freeNames = e.freeNames := by
  induction e with
  | const v => rfl
  | var m => rfl
  | sum ts ih =>
    rw [neg, negAll_eq_map]
    exact freeNamesAll_congr (by simpa using ih)
  | product fs _ =>
    rcases negFactors_cases fs with ⟨xs, f, ys, rfl, -, hneg⟩ | ⟨-, hneg⟩
    · rw [neg, hneg]
      exact freeNamesAll_congr (by simp [freeNames_flipSign])
    · rw [neg, hneg]
      rfl
  | matrix g ih =>
    rw [neg, negAll_eq_map]
    exact freeNamesAll_congr (by simpa using ih)

end

theorem isZero_flipSign (e : Expr ℚ) : e.flipSign.isZero = e.isZero := by
  cases e with
  | const v => exact decide_eq_decide.mpr neg_eq_zero
  | var m => exact decide_eq_decide.mpr neg_eq_zero
  | _ => rfl

/-- What is neither a sum nor a grid is zero if its negation is. -/
theorem isZero_neg {e : Expr ℚ} (hs : e.kind ≠ .sum) (hm : e.kind ≠ .matrix) : e.neg.isZero = e.isZero := by
  cases e with
  | const v => exact isZero_flipSign (.const v)
  | var m => exact isZero_flipSign (.var m)
  | sum ts => exact absurd rfl hs
  | product fs =>
    rw [neg, isZero_product, isZero_product]
    rcases negFactors_cases fs with ⟨xs, f, ys, rfl, -, hneg⟩ | ⟨-, hneg⟩
    · rw [hneg, List.any_append, List.any_append, List.any_cons, List.any_cons, isZero_flipSign]
    · rw [hneg]
      rfl
  | matrix g => exact absurd rfl hm

/-- The opposite coefficient goes through to the end. -/
theorem splitFrom_neg (v : ℚ) (fs : List (Expr ℚ)) :
    splitFrom (-v) fs = (-(splitFrom v fs).1, (splitFrom v fs).2) := by
  induction fs generalizing v with
  | nil => rfl
  | cons f fs ih => cases f <;> simp [splitFrom, ih]

/-- So does the opposite sign of a factor. -/
theorem splitFrom_flipSign {v : ℚ} {xs ys : List (Expr ℚ)} {f : Expr ℚ} (hf : f.isNumeric = true) :
    splitFrom v (xs ++ f.flipSign :: ys) =
      (-(splitFrom v (xs ++ f :: ys)).1, (splitFrom v (xs ++ f :: ys)).2) := by
  induction xs generalizing v with
  | nil =>
    cases f with
    | const w => simp [flipSign, splitFrom, splitFrom_neg]
    | var m => simp [flipSign, splitFrom, Monomial.neg, Monomial.bare, splitFrom_neg]
    | _ => cases hf
  | cons x xs ih => cases x <;> simp [splitFrom, ih]

/-- A product and its negation differ in the sign of their coefficients only. -/
theorem splitCoefficient_negFactors (fs : List (Expr ℚ)) :
    splitCoefficient (negFactors fs) = (-(splitCoefficient fs).1, (splitCoefficient fs).2) := by
  unfold splitCoefficient
  rcases negFactors_cases fs with ⟨xs, f, ys, rfl, hf, hneg⟩ | ⟨-, hneg⟩
  · rw [hneg, splitFrom_flipSign hf]
  · rw [hneg, splitFrom, one_mul, splitFrom_neg]

/-- What is not a number stays when the coefficient is taken out. -/
theorem splitFrom_ne_nil {v : ℚ} {fs : List (Expr ℚ)} (h : ∃ f ∈ fs, f.kind ≠ .constant) : (splitFrom v fs).2 ≠ [] := by
  induction fs generalizing v with
  | nil => simp at h
  | cons f fs ih =>
    cases f with
    | const w => exact ih (by simpa [kind] using h)
    | _ => simp [splitFrom]

/-! ## Like factors -/

theorem sameFactors_refl (fs : List (Expr ℚ)) : sameFactors fs fs = true := by
  by_cases hs : ∀ e ∈ fs ++ fs, e.isScalar = true
  · exact (sameFactors_of_scalars hs).mpr ⟨fs, .refl fs, sameAll_iff_eq.mpr rfl⟩
  · exact (sameFactors_of_not_scalars (by simpa using hs)).mpr (sameAll_iff_eq.mpr rfl)

/-! ## A value and its negation -/

/-- The value and its negation make one node, and that is zero. -/
def Cancels (a : Expr ℚ) : Prop := ∃ r, a.add a.neg = .ok r ∧ r.kind ≠ .sum ∧ r.isZero = true

theorem cancels_const (v : ℚ) : Cancels (.const v) := by
  by_cases hv : v = 0
  · rw [hv]
    exact ⟨_, const_zero_add rfl _, by simp [neg, kind], rfl⟩
  · refine ⟨.const (v + -v), ?_, by simp [kind], Rational.nearZero_iff.mpr (add_neg_cancel v)⟩
    rw [add_eq_ok_iff, neg, Calls.addStep, if_neg (by simpa using hv)]
    rfl

theorem cancels_var (m : Monomial ℚ) : Cancels (.var m) := by
  have hzero : ofMonomial { m with quantity := m.quantity + m.neg.quantity } = .const 0 :=
    if_pos (Rational.nearZero_iff.mpr (add_neg_cancel m.quantity))
  refine ⟨.const 0, ?_, by simp [kind], rfl⟩
  rw [add_eq_ok_iff, neg, Calls.addStep, if_pos (by simp [Monomial.isLike, Monomial.neg]), hzero]
  rfl

/-- A product and its negation have the same factors and opposite coefficients. -/
theorem cancels_product {fs : List (Expr ℚ)} (h : ∃ f ∈ fs, f.kind ≠ .constant) : Cancels (.product fs) := by
  have hsame : (product fs).neg.isZero = (product fs).isZero := isZero_neg (by simp [kind]) (by simp [kind])
  cases hz : (product fs).isZero with
  | true =>
    refine ⟨.product fs, ?_, by simp [kind], hz⟩
    rw [add_eq_ok_iff, neg, Calls.addStep]
    exact bind_eq_ok.mpr ⟨true, congrArg _ (hsame.trans hz), rfl⟩
  | false =>
    have hlike : Calls.unbounded.addProducts fs (negFactors fs) = .ok (.const 0) := by
      have hne : (splitCoefficient fs).2 ≠ [] := splitFrom_ne_nil h
      unfold Calls.addProducts
      rw [splitCoefficient_negFactors]
      dsimp only
      rw [sameFactors_refl, Bool.and_true, if_pos (by simpa using hne), add_neg_cancel]
      exact if_pos rfl
    refine ⟨.const 0, ?_, by simp [kind], rfl⟩
    rw [add_eq_ok_iff, neg, Calls.addStep]
    exact bind_eq_ok.mpr ⟨false, congrArg _ (hsame.trans hz), hlike⟩

/-- The negation of the first term takes it away. -/
theorem addTerm_neg {t : Expr ℚ} (ts : List (Expr ℚ)) (ht : Cancels t) (hz : t.neg.isZero = false) :
    Calls.unbounded.addTerm (t :: ts) t.neg = .ok ts := by
  obtain ⟨r, hr, hk, hzero⟩ := ht
  have hoffer : Calls.unbounded.offer t.neg t.neg.freeNames (t :: ts) = .ok (.merged ts) := by
    unfold Calls.offer
    rw [if_neg (by simp [freeNames_neg]), Calls.unbounded_add hr, ok_bind]
    cases r with
    | sum ms => exact absurd rfl hk
    | _ =>
      dsimp only
      rw [Calls.unbounded_isZero, ok_bind, hzero]
      rfl
  unfold Calls.addTerm
  rw [Calls.unbounded_isZero, ok_bind, hz, if_neg Bool.false_ne_true, hoffer]
  rfl

theorem cancels_sum {ts : List (Expr ℚ)} (hs : Shaped (.sum ts)) (h : ∀ t ∈ ts, Cancels t ∧ t.neg.isZero = false) :
    Cancels (.sum ts) := by
  have hterms : ∀ us : List (Expr ℚ), (∀ t ∈ us, Cancels t ∧ t.neg.isZero = false) →
      (us.map Expr.neg).foldlM Calls.unbounded.addTerm us = .ok [] := by
    intro us hus
    induction us with
    | nil => rfl
    | cons u us ih =>
      obtain ⟨hu, hus⟩ := List.forall_mem_cons.mp hus
      rw [List.map_cons, List.foldlM_cons, addTerm_neg us hu.1 hu.2]
      exact ih hus
  obtain ⟨s, hshape⟩ := hs.shape
  have hneg : (Expr.sum ts).neg.terms = ts.map Expr.neg := by
    rw [neg, negAll_eq_map, terms]
  refine ⟨ofTerms [], add_sum_eq_ok (by simp [neg, kind]) hshape (by rw [shape_neg, hshape]) ?_, by simp [ofTerms, kind], rfl⟩
  rw [hneg]
  exact hterms ts h

/-- Grids are added cell by cell. -/
theorem cancels_matrix {g : Grid (Expr ℚ)} (h : ∀ c ∈ g.cells, Cancels c) : Cancels (.matrix g) := by
  have hcells : Succeeds (fun rs => ∀ r ∈ rs, r.isZero = true)
      ((g.cells.zip (g.cells.map Expr.neg)).mapM fun p => p.1.add p.2) := by
    refine Ends.mapM fun p hp => ?_
    rw [← List.map_prod_left_eq_zip] at hp
    obtain ⟨c, hc, rfl⟩ := List.mem_map.mp hp
    obtain ⟨r, hr, _, hz⟩ := h c hc
    show Ends _ _ (c.add c.neg)
    rw [hr]
    exact hz
  obtain ⟨rs, hrs, hz⟩ := hcells.eq_ok
  have hcalls : (g.cells.zip (g.cells.map Expr.neg)).mapM (fun p => Calls.unbounded.add p.1 p.2) = .ok rs :=
    mapM_eq_ok.mpr ((mapM_eq_ok.mp hrs).imp fun p r => Calls.unbounded_add)
  refine ⟨.matrix ⟨g.rows, g.cols, rs⟩, ?_, by simp [kind], ?_⟩
  · rw [add_eq_ok_iff, neg, negAll_eq_map, Calls.addStep, if_pos (by rfl)]
    exact bind_eq_ok.mpr ⟨_, bind_eq_ok.mpr ⟨rs, hcalls, rfl⟩, rfl⟩
  · rw [isZero_matrix]
    exact List.all_eq_true.mpr hz

theorem cancels {a : Expr ℚ} (hs : Shaped a) (hz : ∀ ts, Occurs (.sum ts) a → ∀ t ∈ ts, t.isZero = false)
    (hneg : ∀ ts, Occurs (.sum ts) a → ∀ t ∈ ts, t.kind = .sum ∨ t.kind = .matrix → t.neg.isZero = false)
    (hf : ∀ fs, Occurs (.product fs) a → ∃ f ∈ fs, f.kind ≠ .constant) : Cancels a := by
  induction a with
  | const v => exact cancels_const v
  | var m => exact cancels_var m
  | sum ts ih =>
    refine cancels_sum hs fun t ht => ⟨?_, ?_⟩
    · exact ih t ht (hs.children t ht) (fun ts ho => hz ts (.child ht ho)) (fun ts ho => hneg ts (.child ht ho))
        fun fs ho => hf fs (.child ht ho)
    · by_cases hk : t.kind = .sum ∨ t.kind = .matrix
      · exact hneg ts .root t ht hk
      · rw [not_or] at hk
        rw [isZero_neg hk.1 hk.2]
        exact hz ts .root t ht
  | product fs _ => exact cancels_product (hf fs .root)
  | matrix g ih =>
    exact cancels_matrix fun c hc => ih c hc (hs.children c hc) (fun ts ho => hz ts (.child hc ho))
      (fun ts ho => hneg ts (.child hc ho)) fun fs ho => hf fs (.child hc ho)

/-- A value minus itself is seen to be zero, if no term of a sum in it is, and if no sum or grid among the
    terms is seen to be zero with the other sign. -/
theorem sub_self_isZero {a : Expr ℚ} (hs : Shaped a) (hz : ∀ ts, Occurs (.sum ts) a → ∀ t ∈ ts, t.isZero = false)
    (hneg : ∀ ts, Occurs (.sum ts) a → ∀ t ∈ ts, t.kind = .sum ∨ t.kind = .matrix → t.neg.isZero = false)
    (hf : ∀ fs, Occurs (.product fs) a → ∃ f ∈ fs, f.kind ≠ .constant) : ∃ r, a.sub a = .ok r ∧ r.isZero = true := by
  obtain ⟨r, hr, _, hzero⟩ := cancels hs hz hneg hf
  exact ⟨r, hr, hzero⟩

/-- Powers of `x`, grouped beside a product. -/
theorem sub_self_isZero_group :
    ∃ r, sub (.sum [.sum [.var ⟨"x", 1, 1⟩, .var ⟨"x", 1, 2⟩], .product [.const 2, .var ⟨"x", 1, 1⟩, .var ⟨"y", 1, 1⟩]])
      (.sum [.sum [.var ⟨"x", 1, 1⟩, .var ⟨"x", 1, 2⟩],
        .product [.const 2, .var ⟨"x", 1, 1⟩, .var ⟨"y", 1, (1 : ℚ)⟩]]) = .ok r ∧ r.isZero = true := by
  have hgridless : Gridless (.sum [.sum [.var ⟨"x", 1, 1⟩, .var ⟨"x", 1, 2⟩],
      .product [.const 2, .var ⟨"x", 1, 1⟩, .var ⟨"y", 1, (1 : ℚ)⟩]]) := by
    simp [Gridless]
  refine sub_self_isZero hgridless.shaped.1 ?_ ?_ ?_
  · intro ts ho
    simp only [occurs_sum, occurs_product, occurs_const, occurs_var, List.mem_cons, List.not_mem_nil,
      or_false, exists_eq_or_imp, exists_eq_left, sum.injEq, reduceCtorEq, or_self] at ho
    rcases ho with rfl | rfl
    all_goals exact List.forall_mem_cons.mpr ⟨by cbv, List.forall_mem_singleton.mpr (by cbv)⟩
  · intro ts ho
    simp only [occurs_sum, occurs_product, occurs_const, occurs_var, List.mem_cons, List.not_mem_nil,
      or_false, exists_eq_or_imp, exists_eq_left, sum.injEq, reduceCtorEq, or_self] at ho
    rcases ho with rfl | rfl
    all_goals exact List.forall_mem_cons.mpr ⟨fun _ => by cbv, List.forall_mem_singleton.mpr fun _ => by cbv⟩
  · intro fs ho
    simp only [occurs_sum, occurs_product, occurs_const, occurs_var, List.mem_cons, List.not_mem_nil,
      or_false, exists_eq_or_imp, exists_eq_left, product.injEq, reduceCtorEq, or_self, false_or] at ho
    subst ho
    exact ⟨_, List.mem_cons_of_mem _ List.mem_cons_self, by simp [kind]⟩

/-- Half of `x` minus half of `x`, where only the first half is a product. It is not seen to be zero. -/
def halves : Expr ℚ := .sum [.product [.const (1 / 2), .var ⟨"x", 1, 1⟩], .var ⟨"x", -1 / 2, 1⟩]

/-- Twice that, with a minus. It is not seen to be zero either, but its negation is: twice a half is `x` itself,
    and minus twice a half is a product again. -/
def lopsided : Expr ℚ := .sum [.product [.const (-1), halves], .product [.const (-1), halves]]

/-- Its negation is dropped as zero, so it remains when it is subtracted from itself. -/
theorem sub_self_remains :
    ¬ ∀ a : Expr ℚ, Shaped a → (∀ ts, Occurs (.sum ts) a → ∀ t ∈ ts, t.isZero = false) →
      (∀ fs, Occurs (.product fs) a → ∃ f ∈ fs, f.kind ≠ .constant) → ∃ r, a.sub a = .ok r ∧ r.isZero = true := by
  intro h
  have hgridless : Gridless (.sum [lopsided, .var ⟨"y", 1, 1⟩]) := by
    simp [Gridless, lopsided, halves]
  have hterms : ∀ ts, Occurs (.sum ts) (.sum [lopsided, .var ⟨"y", 1, 1⟩]) → ∀ t ∈ ts, t.isZero = false := by
    intro ts ho
    simp only [lopsided, halves, occurs_sum, occurs_product, occurs_const, occurs_var, List.mem_cons, List.not_mem_nil,
      or_false, exists_eq_or_imp, exists_eq_left, sum.injEq, reduceCtorEq, or_self, false_or] at ho
    rcases ho with rfl | rfl | rfl
    all_goals exact List.forall_mem_cons.mpr ⟨by cbv, List.forall_mem_singleton.mpr (by cbv)⟩
  have hfactors : ∀ fs, Occurs (.product fs) (.sum [lopsided, .var ⟨"y", 1, (1 : ℚ)⟩]) → ∃ f ∈ fs, f.kind ≠ .constant := by
    intro fs ho
    simp only [lopsided, halves, occurs_sum, occurs_product, occurs_const, occurs_var, List.mem_cons, List.not_mem_nil,
      or_false, exists_eq_or_imp, exists_eq_left, product.injEq, reduceCtorEq, or_self, false_or] at ho
    rcases ho with rfl | rfl
    all_goals exact ⟨_, List.mem_cons_of_mem _ (List.mem_singleton.mpr rfl), by simp [kind]⟩
  have hsub : sub (.sum [lopsided, .var ⟨"y", 1, 1⟩]) (.sum [lopsided, .var ⟨"y", 1, 1⟩]) = .ok lopsided := by cbv
  have hremains : lopsided.isZero = false := by cbv
  obtain ⟨r, hr, hz⟩ := h _ hgridless.shaped.1 hterms hfactors
  rw [hsub] at hr
  cases hr
  rw [hremains] at hz
  cases hz

end SymbolicAlgebra.Expr
