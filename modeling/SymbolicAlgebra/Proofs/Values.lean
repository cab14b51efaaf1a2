/-
  SymbolicAlgebra.Proofs.Values — the value of a tree in a ring.

  A tree over exact fractions can be read in any ring that holds the fractions, given the values of
  the powers of names and of grids (`Interpretation`): sums are sums, and products are products in
  the order of their factors. Nothing here asks the ring to be commutative, so the same lemmas serve
  numbers and matrices.

  Here is what the pieces of the operations do to the value: negation, coefficients, the comparison
  of factors, and the ways in which terms are collected. The latter are stated for any predicate on
  trees under which additions add (`Interpretation.Adds`).
-/

import SymbolicAlgebra.Proofs.Rational
import SymbolicAlgebra.Proofs.Matching

namespace SymbolicAlgebra

/-! ## Like factors -/

namespace Expr

/-- The same factors one by one, or in any order if they are single numbers. -/
theorem sameFactors_cases {fs gs : List (Expr ℚ)} (h : sameFactors fs gs = true) :
    fs = gs ∨ (∀ f ∈ fs, f.isScalar = true) ∧ fs.Perm gs := by
  by_cases hs : ∀ e ∈ fs ++ gs, e.isScalar = true
  · obtain ⟨hs', hperm, hsame⟩ := (sameFactors_of_scalars hs).mp h
    cases sameAll_iff_eq.mp hsame
    exact .inr ⟨(List.forall_mem_append.mp hs).1, hperm⟩
  · exact .inl (sameAll_iff_eq.mp ((sameFactors_of_not_scalars (by simpa using hs)).mp h))

end Expr

/-! ## Reading a tree -/

/-- How names and grids are read in a ring. -/
structure Interpretation (R : Type) [Ring R] [Algebra ℚ R] where
  power : String → ℤ → R
  grid : Grid (Expr ℚ) → R
  power_zero (n : String) : power n 0 = 1

namespace Interpretation

open SymbolicAlgebra.Expr

variable {R : Type} [Ring R] [Algebra ℚ R] (I : Interpretation R)

def monomial (m : Monomial ℚ) : R := m.quantity • I.power m.name ⌊m.exponent⌋

mutual

def value : Expr ℚ → R
  | .const v => v • 1
  | .var m => I.monomial m
  | .sum ts => valueSum ts
  | .product fs => valueProduct fs
  | .matrix g => I.grid g

def valueSum : List (Expr ℚ) → R
  | [] => 0
  | t :: ts => value t + valueSum ts

def valueProduct : List (Expr ℚ) → R
  | [] => 1
  | f :: fs => value f * valueProduct fs

end

@[simp] theorem value_const (v : ℚ) : I.value (.const v) = v • 1 := by rw [value]

@[simp] theorem value_var (m : Monomial ℚ) : I.value (.var m) = I.monomial m := by rw [value]

@[simp] theorem value_sum (ts : List (Expr ℚ)) : I.value (.sum ts) = (ts.map I.value).sum := by
  rw [value]
  induction ts with
  | nil => rfl
  | cons t ts ih => rw [valueSum, ih, List.map_cons, List.sum_cons]

@[simp] theorem value_product (fs : List (Expr ℚ)) : I.value (.product fs) = (fs.map I.value).prod := by
  rw [value]
  induction fs with
  | nil => rfl
  | cons f fs ih => rw [valueProduct, ih, List.map_cons, List.prod_cons]

@[simp] theorem value_matrix (g : Grid (Expr ℚ)) : I.value (.matrix g) = I.grid g := by rw [value]

/-! ## Monomials -/

theorem monomial_neg (m : Monomial ℚ) : I.monomial m.neg = -I.monomial m := by simp [monomial, Monomial.neg]

theorem monomial_bare (m : Monomial ℚ) : m.quantity • I.monomial m.bare = I.monomial m := by
  simp [monomial, Monomial.bare]

theorem monomial_quantity (m : Monomial ℚ) (q : ℚ) : I.monomial { m with quantity := q } = q • I.monomial m.bare := by
  simp [monomial, Monomial.bare]

@[simp] theorem value_ofMonomial (m : Monomial ℚ) : I.value (ofMonomial m) = I.monomial m := by
  rcases ofMonomial_cases m with ⟨hq, hc⟩ | ⟨he, hc⟩ | ⟨-, -, hc⟩
  · simp [hc, monomial, Rational.nearZero_iff.mp hq]
  · simp [hc, monomial, Rational.nearZero_iff.mp he, I.power_zero]
  · rw [hc, I.value_var]

@[simp] theorem value_collapse (e : Expr ℚ) : I.value e.collapse = I.value e := by
  cases e <;> simp [collapse]

/-- The quantity of a monomial multiplied by a number. -/
theorem monomial_scaled (m : Monomial ℚ) (v : ℚ) :
    I.monomial { m with quantity := m.quantity * v } = v • I.monomial m := by
  rw [monomial_quantity, ← I.monomial_bare m, smul_smul, mul_comm]

/-- Powers of one name must multiply as they are read. -/
theorem value_mulMonomials {m n : Monomial ℚ} (h : m.name = n.name →
    I.power m.name ⌊m.exponent + n.exponent⌋ = I.power m.name ⌊m.exponent⌋ * I.power n.name ⌊n.exponent⌋) :
    I.value (mulMonomials m n) = I.monomial m * I.monomial n := by
  have hprod : I.monomial m * I.monomial n = (m.quantity * n.quantity) • (I.monomial m.bare * I.monomial n.bare) := by
    rw [← I.monomial_bare m, ← I.monomial_bare n, smul_mul_smul_comm]
  rcases mulMonomials_cases m n with ⟨hname, hc⟩ | ⟨hz, hc⟩ | ⟨ho, hc⟩ | hc
  · rw [hc, value_ofMonomial]
    simp only [monomial, h hname, smul_mul_smul_comm]
  · rw [hc, hprod, Rational.nearZero_iff.mp hz, value_const, zero_smul, zero_smul]
  · simp [hc, hprod, Rational.nearOne_iff.mp ho]
  · simp [hc, hprod]

/-! ## Lists of terms and factors -/

theorem value_terms (e : Expr ℚ) : (e.terms.map I.value).sum = I.value e := by
  cases e <;> simp [terms]

theorem value_factors (e : Expr ℚ) : (e.factors.map I.value).prod = I.value e := by
  cases e <;> simp [factors]

@[simp] theorem value_ofTerms (ts : List (Expr ℚ)) : I.value (ofTerms ts) = (ts.map I.value).sum := by
  unfold ofTerms
  split <;> simp

@[simp] theorem value_ofFactors (fs : List (Expr ℚ)) : I.value (ofFactors fs) = (fs.map I.value).prod := by
  unfold ofFactors
  split <;> simp

theorem value_pair {a b c : Expr ℚ} (h : pair a b = .ok c) : I.value c = I.value a + I.value b := by
  obtain ⟨s, -, -, rfl⟩ := pair_eq_ok h
  simp

theorem value_checkedProduct {fs : List (Expr ℚ)} {c : Expr ℚ} (h : checkedProduct fs = .ok c) :
    I.value c = (fs.map I.value).prod := by
  obtain ⟨s, -, rfl⟩ := checkedProduct_eq_ok h
  exact I.value_product fs

theorem value_chain {a b c : Expr ℚ} (h : chain a b = .ok c) : I.value c = I.value a * I.value b := by
  rw [I.value_checkedProduct h, List.map_append, List.prod_append, value_factors, value_factors]

theorem value_flatMap_factors (fs : List (Expr ℚ)) : ((fs.flatMap factors).map I.value).prod = (fs.map I.value).prod := by
  induction fs with
  | nil => rfl
  | cons f fs ih =>
    rw [List.flatMap_cons, List.map_append, List.prod_append, value_factors, ih, List.map_cons, List.prod_cons]

/-! ## Signs -/

theorem value_flipSign {e : Expr ℚ} (h : e.isNumeric = true) : I.value e.flipSign = -I.value e := by
  cases e with
  | const v => simp [flipSign]
  | var m => simp [flipSign, monomial_neg]
  | _ => cases h

theorem value_negFactors (fs : List (Expr ℚ)) : ((negFactors fs).map I.value).prod = -(fs.map I.value).prod := by
  rcases negFactors_cases fs with ⟨xs, f, ys, rfl, hf, hneg⟩ | ⟨-, hneg⟩
  · simp [hneg, I.value_flipSign hf]
  · simp [hneg]

/-- Negation negates the value, if it does so for grids whose cells it does so for. -/
theorem value_neg (hgrid : ∀ g : Grid (Expr ℚ), (∀ c ∈ g.cells, I.value c.neg = -I.value c) →
    I.grid (g.map Expr.neg) = -I.grid g) (e : Expr ℚ) : I.value e.neg = -I.value e := by
  induction e with
  | const v => simp [neg]
  | var m => simp [neg, monomial_neg]
  | sum ts ih =>
    rw [neg, negAll_eq_map, value_sum, value_sum, List.map_map, List.sum_neg, List.map_map]
    exact congrArg List.sum (List.map_congr_left ih)
  | product fs => rw [neg, value_product, value_product, value_negFactors]
  | matrix g ih =>
    rw [neg, negAll_eq_map, value_matrix, value_matrix]
    exact hgrid g ih

/-! ## Coefficients -/

theorem value_mulConstant (v : ℚ) (fs : List (Expr ℚ)) : I.value (mulConstant v fs) = v • (fs.map I.value).prod := by
  rcases mulConstant_cases v fs with ⟨hv, hc⟩ | ⟨hv, hc⟩ | ⟨w, rest, rfl, hc⟩ | ⟨-, hc⟩
  · rw [hc, value_const, Rational.nearZero_iff.mp hv, zero_smul, zero_smul]
  · rw [hc, value_product, Rational.nearOne_iff.mp hv, one_smul]
  · have hprod : v • ((Expr.const w :: rest).map I.value).prod = (w * v) • (rest.map I.value).prod := by
      rw [List.map_cons, List.prod_cons, value_const, smul_one_mul, smul_smul, mul_comm]
    rcases hc with ⟨hw, hc⟩ | hc
    · rw [hprod, hc, value_ofFactors, Rational.nearOne_iff.mp hw, one_smul]
    · rw [hprod, hc, value_product, List.map_cons, List.prod_cons, value_const, smul_one_mul]
  · rw [hc, value_product, List.map_cons, List.prod_cons, value_const, smul_one_mul]

theorem value_prependFactor {a c : Expr ℚ} {fs : List (Expr ℚ)} (h : prependFactor a fs = .ok c) :
    I.value c = I.value a * (fs.map I.value).prod := by
  rcases prependFactor_cases h with ⟨v, rfl, rfl⟩ | ⟨-, h⟩
  · rw [value_mulConstant, value_const, smul_one_mul]
  · rw [I.value_checkedProduct h, List.map_cons, List.prod_cons]

/-- Taking the numbers out of a product leaves its value. -/
theorem value_splitFrom (v : ℚ) (fs : List (Expr ℚ)) :
    (splitFrom v fs).1 • ((splitFrom v fs).2.map I.value).prod = v • (fs.map I.value).prod := by
  induction fs generalizing v with
  | nil => simp [splitFrom]
  | cons f fs ih =>
    cases f with
    | const w => simp only [splitFrom, ih, List.map_cons, List.prod_cons, value_const, smul_one_mul, smul_smul]
    | var m =>
      simp only [splitFrom, List.map_cons, List.prod_cons, value_var]
      rw [← mul_smul_comm, ih, mul_smul_comm, ← I.monomial_bare m, smul_mul_assoc, smul_smul]
    | _ =>
      simp only [splitFrom, List.map_cons, List.prod_cons]
      rw [← mul_smul_comm, ih, mul_smul_comm]

theorem value_splitCoefficient (fs : List (Expr ℚ)) :
    (splitCoefficient fs).1 • ((splitCoefficient fs).2.map I.value).prod = (fs.map I.value).prod := by
  rw [splitCoefficient, value_splitFrom, one_smul]

/-! ## Like factors -/

theorem value_sameFactors {fs gs : List (Expr ℚ)} (h : sameFactors fs gs = true)
    (comm : ∀ f ∈ fs, ∀ g ∈ fs, f.isScalar = true → g.isScalar = true → Commute (I.value f) (I.value g)) :
    (fs.map I.value).prod = (gs.map I.value).prod := by
  rcases sameFactors_cases h with rfl | ⟨hs, hp⟩
  · rfl
  · refine (hp.map I.value).prod_eq' (List.pairwise_map.mpr (List.pairwise_of_forall_mem_list ?_))
    exact fun f hf g hg => comm f hf g hg (hs f hf) (hs g hg)

/-! ## Collecting terms -/

section
variable {ε : Type} {G : Expr ℚ → Prop}

/-- Between trees that satisfy `G` the operation adds. -/
def Adds (G : Expr ℚ → Prop) (f : Expr ℚ → Expr ℚ → Except ε (Expr ℚ)) : Prop :=
  ∀ a b c, G a → G b → f a b = .ok c → G c ∧ I.value c = I.value a + I.value b

/-- A tree that satisfies `G` and passes the test is zero. -/
def Detects (G : Expr ℚ → Prop) (f : Expr ℚ → Except ε Bool) : Prop := ∀ e, G e → f e = .ok true → I.value e = 0

variable {I}

/-- A term in the place of one of the terms and a further one that make it. -/
theorem sum_replaced {xs ys : List (Expr ℚ)} {x t m : Expr ℚ} (h : I.value m = I.value x + I.value t) :
    ((xs ++ m :: ys).map I.value).sum = ((xs ++ x :: ys).map I.value).sum + I.value t := by
  simp only [List.map_append, List.map_cons, List.sum_append, List.sum_cons, h]
  abel

/-- One of the terms left out together with a further one that cancels it. -/
theorem sum_left_out {xs ys : List (Expr ℚ)} {x t : Expr ℚ} (h : I.value x + I.value t = 0) :
    ((xs ++ ys).map I.value).sum = ((xs ++ x :: ys).map I.value).sum + I.value t := by
  calc ((xs ++ ys).map I.value).sum = ((xs ++ ys).map I.value).sum + (I.value x + I.value t) := by rw [h, add_zero]
    _ = ((xs ++ x :: ys).map I.value).sum + I.value t := by
      simp only [List.map_append, List.map_cons, List.sum_append, List.sum_cons]
      abel

/-- A further term that goes into one of the terms adds its value, whether what they make takes that
    term's place or is zero and left out. -/
theorem sum_merged {xs ys us : List (Expr ℚ)} {x t m : Expr ℚ} (hts : ∀ y ∈ xs ++ x :: ys, G y) (hm : G m)
    (hv : I.value m = I.value x + I.value t) (hus : us = xs ++ m :: ys ∨ I.value m = 0 ∧ us = xs ++ ys) :
    (∀ u ∈ us, G u) ∧ (us.map I.value).sum = ((xs ++ x :: ys).map I.value).sum + I.value t := by
  obtain ⟨hxs, hrest⟩ := List.forall_mem_append.mp hts
  obtain ⟨-, hys⟩ := List.forall_mem_cons.mp hrest
  rcases hus with rfl | ⟨hz, rfl⟩
  · exact ⟨List.forall_mem_append.mpr ⟨hxs, List.forall_mem_cons.mpr ⟨hm, hys⟩⟩, sum_replaced hv⟩
  · exact ⟨List.forall_mem_append.mpr ⟨hxs, hys⟩, sum_left_out (by rw [← hv, hz])⟩

theorem Adds.foldlM {f : Expr ℚ → Expr ℚ → Except ε (Expr ℚ)} (hf : I.Adds G f) {t c : Expr ℚ} {ts : List (Expr ℚ)}
    (h : ts.foldlM f t = .ok c) (ht : G t) (hts : ∀ x ∈ ts, G x) : G c ∧ I.value c = ((t :: ts).map I.value).sum := by
  refine foldlM_induction (P := fun done c => G c ∧ I.value c = ((t :: done).map I.value).sum) h ⟨ht, by simp⟩ ?_
  intro done x c c' hx hc h
  obtain ⟨hG, hv⟩ := hf c x c' hc.1 (hts x hx) h
  refine ⟨hG, ?_⟩
  rw [hv, hc.2]
  simp [add_assoc]

variable {call : Calls ℚ} (hadd : I.Adds G call.add) (hzero : I.Detects G call.isZero)

include hadd in
theorem value_callSumOf {ts : List (Expr ℚ)} {c : Expr ℚ} (h : call.sumOf ts = .ok c) (hts : ∀ t ∈ ts, G t)
    (h0 : G (.const 0)) : G c ∧ I.value c = (ts.map I.value).sum := by
  unfold Calls.sumOf at h
  split at h
  · cases pure_eq_ok.mp h
    exact ⟨h0, by simp⟩
  · obtain ⟨ht, hts⟩ := List.forall_mem_cons.mp hts
    exact hadd.foldlM h ht hts

include hadd in
/-- The sum of what becomes of the terms one by one. -/
theorem value_callSumOf_forall₂ {Q : Expr ℚ → Expr ℚ → Prop} {f : Expr ℚ → R} {ts us : List (Expr ℚ)} {c : Expr ℚ}
    (hus : List.Forall₂ Q ts us) (h : call.sumOf us = .ok c) (hQ : ∀ t ∈ ts, ∀ u, Q t u → G u ∧ I.value u = f t)
    (h0 : G (.const 0)) : G c ∧ I.value c = (ts.map f).sum := by
  obtain ⟨hc, hv⟩ := value_callSumOf hadd h (forall_mem_right hus fun t ht u hu => (hQ t ht u hu).1) h0
  exact ⟨hc, by rw [hv, map_eq_map_of_mem hus fun t ht u hu => (hQ t ht u hu).2]⟩

theorem value_sumOf (hadd : I.Adds G Expr.add) {ts : List (Expr ℚ)} {c : Expr ℚ} (h : sumOf ts = .ok c)
    (hts : ∀ t ∈ ts, G t) (h0 : G (.const 0)) : G c ∧ I.value c = (ts.map I.value).sum := by
  unfold Expr.sumOf at h
  split at h
  · cases pure_eq_ok.mp h
    exact ⟨h0, by simp⟩
  · obtain ⟨ht, hts⟩ := List.forall_mem_cons.mp hts
    exact hadd.foldlM h ht hts

theorem value_sumOf_forall₂ (hadd : I.Adds G Expr.add) {Q : Expr ℚ → Expr ℚ → Prop} {f : Expr ℚ → R}
    {ts us : List (Expr ℚ)} {c : Expr ℚ} (hus : List.Forall₂ Q ts us) (h : sumOf us = .ok c)
    (hQ : ∀ t ∈ ts, ∀ u, Q t u → G u ∧ I.value u = f t) (h0 : G (.const 0)) : G c ∧ I.value c = (ts.map f).sum := by
  obtain ⟨hc, hv⟩ := value_sumOf hadd h (forall_mem_right hus fun t ht u hu => (hQ t ht u hu).1) h0
  exact ⟨hc, by rw [hv, map_eq_map_of_mem hus fun t ht u hu => (hQ t ht u hu).2]⟩

include hadd hzero

theorem value_addTerm {ts us : List (Expr ℚ)} {t : Expr ℚ} (h : call.addTerm ts t = .ok us) (hts : ∀ x ∈ ts, G x)
    (ht : G t) : (∀ u ∈ us, G u) ∧ (us.map I.value).sum = (ts.map I.value).sum + I.value t := by
  rcases Calls.addTerm_cases h with ⟨hz, rfl⟩ | rfl | ⟨xs, x, ys, m, rfl, -, hm, hus⟩
  · exact ⟨hts, by rw [hzero t ht hz, add_zero]⟩
  · exact ⟨List.forall_mem_append.mpr ⟨hts, by simpa using ht⟩, by simp⟩
  · obtain ⟨hG, hv⟩ := hadd x t m (hts x (by simp)) ht hm
    exact sum_merged hts hG hv (hus.imp And.right (And.imp_left (hzero m hG)))

theorem value_addToSum {ts : List (Expr ℚ)} {b c : Expr ℚ} (h : call.addToSum ts b = .ok c) (hts : ∀ x ∈ ts, G x)
    (hb : ∀ t ∈ b.terms, G t) : ∃ us, (∀ u ∈ us, G u) ∧ c = ofTerms us ∧ I.value c = (ts.map I.value).sum + I.value b := by
  obtain ⟨s, us, -, -, hus, rfl⟩ := Calls.addToSum_eq_ok h
  obtain ⟨hG, hv⟩ := foldlM_induction (P := fun done us => (∀ u ∈ us, G u) ∧
    (us.map I.value).sum = (ts.map I.value).sum + (done.map I.value).sum) hus ⟨hts, by simp⟩ (by
      intro done t us us' ht hus h
      obtain ⟨hG, hv⟩ := value_addTerm hadd hzero h hus.1 (hb t ht)
      refine ⟨hG, ?_⟩
      rw [hv, hus.2]
      simp [add_assoc])
  exact ⟨us, hG, rfl, by rw [I.value_ofTerms, hv, I.value_terms]⟩

theorem value_keep {kept kept' : List (Expr ℚ)} {t : Expr ℚ} (h : call.keep kept t = .ok kept') (hk : ∀ x ∈ kept, G x)
    (ht : G t) : (∀ x ∈ kept', G x) ∧ (kept'.map I.value).sum = (kept.map I.value).sum + I.value t := by
  rcases Calls.keep_cases h with rfl | ⟨hz, rfl⟩ | ⟨xs, x, ys, r, rfl, hr, hz, rfl⟩
  · exact ⟨List.forall_mem_append.mpr ⟨hk, by simpa using ht⟩, by simp⟩
  · exact ⟨hk, by rw [hzero t ht hz, add_zero]⟩
  · obtain ⟨hG, hv⟩ := hadd x t r (hk x (by simp)) ht hr
    exact sum_merged hk hG hv (Or.inr ⟨hzero r hG hz, rfl⟩)

/-- Terms that cancel pairwise add up to zero. -/
theorem value_of_isZeroStep_sum {ts : List (Expr ℚ)} (h : call.isZeroStep (.sum ts) = .ok true) (hts : ∀ t ∈ ts, G t) :
    I.value (.sum ts) = 0 := by
  obtain ⟨kept, hkept, h⟩ := bind_eq_ok.mp h
  have hnil : kept = [] := List.isEmpty_iff.mp (pure_eq_ok.mp h)
  have hsum := (foldlM_induction (P := fun done kept => (∀ x ∈ kept, G x) ∧
    (kept.map I.value).sum = (done.map I.value).sum) hkept ⟨by simp, rfl⟩ (by
      intro done t kept kept' ht hk h
      obtain ⟨hG, hv⟩ := value_keep hadd hzero h hk.1 (hts t ht)
      refine ⟨hG, ?_⟩
      rw [hv, hk.2]
      simp)).2
  rw [value_sum, ← hsum, hnil, List.map_nil, List.sum_nil]

end

/-! ## Distributing -/

section
variable {I} {G : Expr ℚ → Prop} (hadd : I.Adds G Expr.add) (hzero : ∀ e, G e → e.isZero = true → I.value e = 0)
include hadd hzero

theorem value_foldCross {t : Expr ℚ} {ts us : List (Expr ℚ)} (h : foldCross t ts = .ok us) (ht : G t)
    (hts : ∀ x ∈ ts, G x) : (∀ u ∈ us, G u) ∧ (us.map I.value).sum = (ts.map I.value).sum + I.value t := by
  rcases foldCross_cases h with ⟨hz, rfl⟩ | ⟨-, rfl⟩ | ⟨xs, x, ys, m, rfl, hm, hus⟩
  · exact ⟨hts, by rw [hzero t ht hz, add_zero]⟩
  · exact ⟨List.forall_mem_append.mpr ⟨hts, by simpa using ht⟩, by simp⟩
  · obtain ⟨hG, hv⟩ := hadd x t m (hts x (by simp)) ht hm
    exact sum_merged hts hG hv (hus.imp And.right (And.imp_left (hzero m hG)))

theorem value_crossTerms {zs done : List (Expr ℚ)} (h : zs.foldlM (fun done z => foldCross z done) [] = .ok done)
    (hzs : ∀ z ∈ zs, G z) : (∀ x ∈ done, G x) ∧ (done.map I.value).sum = (zs.map I.value).sum := by
  refine foldlM_induction (P := fun zs done => (∀ x ∈ done, G x) ∧
    (done.map I.value).sum = (zs.map I.value).sum) h ⟨by simp, rfl⟩ ?_
  intro zs z done done' hz hd h
  obtain ⟨hG, hv⟩ := value_foldCross hadd hzero h (hzs z hz) hd.1
  refine ⟨hG, ?_⟩
  rw [hv, hd.2]
  simp

end

theorem sum_map_product (ts us : List (Expr ℚ)) : ((ts ×ˢ us).map fun p => I.value p.1 * I.value p.2).sum =
    (ts.map I.value).sum * (us.map I.value).sum := by
  induction ts with
  | nil => simp
  | cons t ts ih =>
    rw [List.product_cons, List.map_append, List.sum_append, ih, List.map_map, List.map_cons, List.sum_cons, add_mul]
    exact congrArg (· + _) (List.sum_map_mul_left us I.value (I.value t))

end Interpretation

end SymbolicAlgebra
