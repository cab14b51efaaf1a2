/-
  SymbolicAlgebra.Proofs.Arithmetic — the operations compute what they are named after.

  Over exact fractions, where both operands stand for numbers, the result of an operation stands
  for the sum, the difference, the product or the quotient of these: `add_denotes`, `mul_denotes`,
  `div_denotes` and their like, and `arithmetic_sound` for all of them. What the zero test takes for
  zero stands for zero (`isZero_sound`).

  Addition, the zero test and scaling call one another, so their laws (`Adds`, `Vanishes`,
  `Scales`) are proved together, each from the laws of the calls it makes. Multiplication and
  division follow by the inductions over the parts of the operands.
-/

import SymbolicAlgebra.Proofs.Evaluation

namespace SymbolicAlgebra.Expr

/-! ## The laws -/

def Adds (ρ : String → ℚ) (a b c : Expr ℚ) : Prop := DefinedAt ρ a → DefinedAt ρ b → Denotes ρ c (eval ρ a + eval ρ b)

def Vanishes (ρ : String → ℚ) (e : Expr ℚ) : Prop := DefinedAt ρ e → eval ρ e = 0

def Scales (ρ : String → ℚ) (v : ℚ) (e c : Expr ℚ) : Prop := DefinedAt ρ e → Denotes ρ c (v * eval ρ e)

variable {ρ : String → ℚ}

theorem Calls.Obeys.closed {call : Calls ℚ} (h : call.Obeys (Adds ρ) (Vanishes ρ) (Scales ρ)) :
    call.Obeys (Everywhere.Closed (assigned ρ)) (fun _ => True)
      fun _ e c => Everywhere (assigned ρ) e → Everywhere (assigned ρ) c where
  add hc ha hb := (h.add hc ha hb).1
  isZero _ := trivial
  scale hc he := (h.scale hc he).1

/-! ## Addition -/

section
variable {call : Calls ℚ} (hcall : call.Obeys (Adds ρ) (Vanishes ρ) (Scales ρ))
include hcall

theorem adds_of_calls : (numbers ρ).Adds (DefinedAt ρ) call.add := by
  intro a b c ha hb h
  rw [← eval_eq_value]
  exact hcall.add h ha hb

theorem detects_of_calls : (numbers ρ).Detects (DefinedAt ρ) call.isZero := by
  intro e he h
  rw [← eval_eq_value]
  exact hcall.isZero h he

theorem eval_addToSum {ts : List (Expr ℚ)} {b c : Expr ℚ} (h : call.addToSum ts b = .ok c)
    (hts : ∀ x ∈ ts, DefinedAt ρ x) (hb : DefinedAt ρ b) : eval ρ c = (ts.map (eval ρ)).sum + eval ρ b := by
  obtain ⟨us, -, -, hv⟩ := Interpretation.value_addToSum (adds_of_calls hcall) (detects_of_calls hcall) h hts
    (Everywhere.terms hb)
  rw [eval_eq_value, hv]

theorem eval_scaleFactors {v : ℚ} {fs : List (Expr ℚ)} {c : Expr ℚ} (h : call.scaleFactors v fs = .ok c)
    (hf : ∀ f ∈ fs, DefinedAt ρ f) : eval ρ c = v * (fs.map (eval ρ)).prod := by
  rcases Calls.scaleFactors_cases h with ⟨hv, rfl⟩ | ⟨-, ⟨rfl, rfl⟩ | ⟨f, rfl, hc⟩ | ⟨-, ⟨hv, rfl⟩ | rfl⟩⟩
  · simp [Rational.nearZero_iff.mp hv]
  · simp
  · have hf := hf f (List.mem_singleton.mpr rfl)
    rw [List.map_singleton, List.prod_singleton]
    rcases Calls.scaleFactor_cases hc with h | ⟨g, rfl, ⟨hv, rfl⟩ | ⟨hv, rfl⟩ | ⟨cells, hcells, rfl⟩⟩
    · exact (hcall.scale h hf).2
    · rw [Rational.nearOne_iff.mp hv, one_mul]
    · rw [Rational.nearMinusOne_iff.mp hv, eval_neg, neg_one_mul]
    · obtain ⟨x, rfl, hx⟩ := hf.cell
      obtain ⟨y, hy, rfl⟩ := forall₂_singleton_left hcells
      rw [eval_cell, eval_cell, (hcall.scale hy hx).2]
  · simp [Rational.nearOne_iff.mp hv]
  · simp

theorem eval_addProducts {fs gs : List (Expr ℚ)} {c : Expr ℚ} (h : call.addProducts fs gs = .ok c)
    (hf : ∀ f ∈ fs, DefinedAt ρ f) : eval ρ c = (fs.map (eval ρ)).prod + (gs.map (eval ρ)).prod := by
  rcases Calls.addProducts_cases h with h | ⟨hs, h⟩
  · obtain ⟨s, -, -, rfl⟩ := pair_eq_ok h
    simp
  · rw [eval_scaleFactors hcall h (Everywhere.splitFrom (assigned_kept ρ) hf), add_mul, eval_splitCoefficient,
      eval_sameFactors hs, eval_splitCoefficient]

theorem adds_of_case {a b c : Expr ℚ} (h : Calls.AddCase call a b c) : Adds ρ a b c := by
  intro ha hb
  refine ⟨Everywhere.addCase (assigned_kept ρ) hcall.closed h ha hb, ?_⟩
  have collapse : DefinedAt ρ a.collapse := Everywhere.collapse ha
  -- A grid that stands for a number is a single cell, so with grids the one cell is worked on.
  cases h with
  | grids _ hcells =>
    obtain ⟨x, rfl, hx⟩ := ha.cell
    obtain ⟨y, rfl, hy⟩ := hb.cell
    obtain ⟨z, hz, rfl⟩ := forall₂_singleton_left hcells
    rw [eval_cell, eval_cell, eval_cell, (hcall.add hz hx hy).2]
  | gridScalar _ _ hcells =>
    obtain ⟨x, rfl, hx⟩ := ha.cell
    obtain ⟨z, hz, rfl⟩ := forall₂_singleton_left hcells
    rw [eval_cell, eval_cell, (hcall.add hz hx hb).2]
  | scalarGrid _ _ hcells =>
    obtain ⟨y, rfl, hy⟩ := hb.cell
    obtain ⟨z, hz, rfl⟩ := forall₂_singleton_left hcells
    rw [eval_cell, eval_cell, (hcall.add hz ha hy).2]
  | zeroLeft _ hv => simp [Rational.nearZero_iff.mp hv]
  | zeroRight _ _ hz => rw [hcall.isZero hz hb, eval_collapse, add_zero]
  | numbers => simp
  | @monomials m n hl =>
    obtain ⟨hn, he⟩ := Bool.and_eq_true_iff.mp hl
    have hn := eq_of_beq hn
    have he := Rational.near_iff.mp he
    simp only [eval_ofMonomial, eval_var, Monomial.eval, hn, he]
    ring
  | sumLeft _ h => rw [eval_addToSum hcall h ha.terms hb, eval_sum]
  | sumRight _ _ h => rw [eval_addToSum hcall h hb.terms collapse, eval_collapse, eval_sum, add_comm]
  | products h => rw [eval_addProducts hcall h ha.factors, eval_product, eval_product]
  | beside h =>
    obtain ⟨s, -, -, rfl⟩ := pair_eq_ok h
    simp

/-! ## Scaling -/

theorem scales_of_case {v : ℚ} {e c : Expr ℚ} (h : Calls.ScaleCase call v e c) : Scales ρ v e c := by
  intro he
  refine ⟨Everywhere.scaleCase (assigned_kept ρ) hcall.closed h he, ?_⟩
  cases h with
  | grid hcells =>
    obtain ⟨x, rfl, hx⟩ := he.cell
    obtain ⟨z, hz, rfl⟩ := forall₂_singleton_left hcells
    rw [eval_cell, eval_cell, (hcall.scale hz hx).2]
  | zero _ hv => simp [Rational.nearZero_iff.mp hv]
  | one _ hv => simp [Rational.nearOne_iff.mp hv]
  | minusOne _ hv => simp [Rational.nearMinusOne_iff.mp hv]
  | number => simp
  | monomial =>
    simp only [eval_ofMonomial, eval_var, Monomial.eval]
    ring
  | @sum ts us _ hus h =>
    have hscaled : ∀ t ∈ ts, ∀ u, call.scale v t = .ok u → Denotes ρ u (v * eval ρ t) :=
      fun t ht u hu => hcall.scale hu (he.terms t ht)
    simp only [Denotes, eval_eq_value] at hscaled
    obtain ⟨-, hv⟩ := Interpretation.value_callSumOf_forall₂ (adds_of_calls hcall) hus h hscaled (.const 0)
    rw [eval_eq_value, hv, ← eval_eq_value, eval_sum, List.sum_map_mul_left]
  | product => rw [eval_mulConstant, eval_product]

/-! ## The zero test -/

theorem vanishes_of_isZeroStep {e : Expr ℚ} (h : call.isZeroStep e = .ok true) : Vanishes ρ e := by
  intro he
  cases e with
  | const v => simpa [Calls.isZeroStep] using h
  | var m =>
    have hm : m.quantity = 0 := by simpa [Calls.isZeroStep] using h
    simp [Monomial.eval, hm]
  | sum ts =>
    rw [eval_eq_value]
    exact Interpretation.value_of_isZeroStep_sum (adds_of_calls hcall) (detects_of_calls hcall) h he.terms
  | product fs =>
    obtain ⟨f, hf, hz⟩ := exists_of_anyM h
    rw [eval_product]
    exact List.prod_eq_zero (List.mem_map.mpr ⟨f, hf, hcall.isZero hz (he.factors f hf)⟩)
  | matrix g =>
    obtain ⟨x, rfl, hx⟩ := he.cell
    rw [eval_cell]
    exact hcall.isZero (all_of_allM h x (List.mem_singleton.mpr rfl)) hx

end

theorem additive_laws (ρ : String → ℚ) : AdditiveLaws (Adds ρ) (Vanishes ρ) (Scales ρ) where
  add hcall h := adds_of_case hcall h
  isZero hcall h := vanishes_of_isZeroStep hcall h
  scale hcall h := scales_of_case hcall h
  pair h ha hb := by
    refine ⟨Everywhere.pair h ha hb, ?_⟩
    rw [eval_eq_value, Interpretation.value_pair _ h]
  chain h he := by
    refine ⟨Everywhere.chain h (.const _) he, ?_⟩
    rw [eval_eq_value, Interpretation.value_chain _ h, ← eval_eq_value, eval_const]

variable {a b c : Expr ℚ}

theorem add_denotes (h : a.add b = .ok c) (ha : DefinedAt ρ a) (hb : DefinedAt ρ b) :
    Denotes ρ c (eval ρ a + eval ρ b) := (additive_laws ρ).of_add h ha hb

theorem isZero_denotes (h : a.isZero = true) (ha : DefinedAt ρ a) : eval ρ a = 0 := (additive_laws ρ).of_isZero h ha

theorem scale_denotes {v : ℚ} (h : scale v a = .ok c) (ha : DefinedAt ρ a) : Denotes ρ c (v * eval ρ a) :=
  (additive_laws ρ).of_scale h ha

theorem neg_denotes (ha : DefinedAt ρ a) : Denotes ρ a.neg (-eval ρ a) :=
  ⟨Everywhere.neg (assigned_kept ρ) ha, eval_neg a⟩

theorem sub_denotes (h : a.sub b = .ok c) (ha : DefinedAt ρ a) (hb : DefinedAt ρ b) :
    Denotes ρ c (eval ρ a - eval ρ b) := by
  have := add_denotes h ha (neg_denotes hb).1
  rwa [eval_neg, ← sub_eq_add_neg] at this

theorem numbers_adds (ρ : String → ℚ) : (numbers ρ).Adds (DefinedAt ρ) Expr.add := by
  intro a b c ha hb h
  rw [← eval_eq_value]
  exact add_denotes h ha hb

theorem sumOf_denotes {ts : List (Expr ℚ)} (h : sumOf ts = .ok c) (hts : ∀ t ∈ ts, DefinedAt ρ t) :
    Denotes ρ c (ts.map (eval ρ)).sum := by
  rw [Denotes, eval_eq_value]
  exact Interpretation.value_sumOf (numbers_adds ρ) h hts (.const 0)

theorem sumOf_denotes_forall₂ {Q : Expr ℚ → Expr ℚ → Prop} {f : Expr ℚ → ℚ} {ts us : List (Expr ℚ)}
    (hus : List.Forall₂ Q ts us) (h : sumOf us = .ok c) (hQ : ∀ t ∈ ts, ∀ u, Q t u → Denotes ρ u (f t)) :
    Denotes ρ c (ts.map f).sum := by
  obtain ⟨hc, hv⟩ := sumOf_denotes h (forall_mem_right hus fun t ht u hu => (hQ t ht u hu).1)
  exact ⟨hc, by rw [hv, map_eq_map_of_mem hus fun t ht u hu => (hQ t ht u hu).2]⟩

/-! ## Multiplication -/

theorem eval_mulMonomials {m n : Monomial ℚ} (hm : m.DefinedAt ρ) (hn : n.DefinedAt ρ) :
    eval ρ (mulMonomials m n) = m.eval ρ * n.eval ρ := by
  rw [eval_eq_value]
  exact (numbers ρ).value_mulMonomials (Monomial.zpow_add_of_definedAt hm hn)

/-- The sum of the products of cells is that of their values. -/
theorem dot_denotes {ps : List (Expr ℚ × Expr ℚ)} {d : Expr ℚ}
    (h : Dot (fun x y z => x.mul y = .ok z ∧ (DefinedAt ρ x → DefinedAt ρ y → eval ρ z = eval ρ x * eval ρ y)) ps c d)
    (hps : ∀ p ∈ ps, DefinedAt ρ p.1 ∧ DefinedAt ρ p.2) (hc : DefinedAt ρ c) :
    Denotes ρ d (eval ρ c + (ps.map fun p => eval ρ p.1 * eval ρ p.2).sum) := by
  induction h with
  | nil => exact ⟨hc, by simp⟩
  | skip hz _ ih =>
    obtain ⟨hp, hps⟩ := List.forall_mem_cons.mp hps
    obtain ⟨hd, he⟩ := ih hps hc
    refine ⟨hd, ?_⟩
    rw [he, List.map_cons, List.sum_cons]
    rcases hz with hz | hz
    · rw [isZero_denotes hz hp.1, zero_mul, zero_add]
    · rw [isZero_denotes hz hp.2, mul_zero, zero_add]
  | add hz hadd _ ih =>
    obtain ⟨hp, hps⟩ := List.forall_mem_cons.mp hps
    obtain ⟨hc', he'⟩ := add_denotes hadd hc (Everywhere.mul (assigned_kept ρ) hz.1 hp.1 hp.2)
    obtain ⟨hd, he⟩ := ih hps hc'
    refine ⟨hd, ?_⟩
    rw [he, he', hz.2 hp.1 hp.2, List.map_cons, List.sum_cons, add_assoc]

/-- What is to be shown of a product is shown of one whose parts it holds of. -/
theorem eval_mulCase
    (h : MulCase (fun x y z => x.mul y = .ok z ∧ (DefinedAt ρ x → DefinedAt ρ y → eval ρ z = eval ρ x * eval ρ y)) a b c)
    (ha : DefinedAt ρ a) (hb : DefinedAt ρ b) : eval ρ c = eval ρ a * eval ρ b := by
  have hP := assigned_kept ρ
  have collapse : DefinedAt ρ a.collapse := Everywhere.collapse ha
  cases h with
  | grids _ hcells =>
    obtain ⟨x, rfl, hx⟩ := ha.cell
    obtain ⟨y, rfl, hy⟩ := hb.cell
    rw [show Shape.places ⟨(Grid.mk 1 1 [x]).rows, (Grid.mk 1 1 [y]).cols⟩ = [(0, 0)] by simp [Shape.places]] at hcells
    obtain ⟨z, hz, rfl⟩ := forall₂_singleton_left hcells
    rw [show ((Grid.mk 1 1 [x]).row 0).zip ((Grid.mk 1 1 [y]).transpose.row 0) = [(x, y)] by
      simp [Grid.row, Grid.transpose, Shape.places]] at hz
    rw [eval_cell, eval_cell, eval_cell, (dot_denotes hz (by simpa using ⟨hx, hy⟩) (.const 0)).2]
    simp
  | gridScalar _ _ hcells =>
    obtain ⟨x, rfl, hx⟩ := ha.cell
    obtain ⟨z, hz, rfl⟩ := forall₂_singleton_left hcells
    rw [eval_cell, eval_cell, hz.2 hx hb]
  | scalarGrid _ _ hcells =>
    obtain ⟨y, rfl, hy⟩ := hb.cell
    obtain ⟨z, hz, rfl⟩ := forall₂_singleton_left hcells
    rw [eval_cell, eval_cell, hz.2 ha hy]
  | besideGrid _ _ _ h => rw [eval_eq_value, Interpretation.value_chain _ h]
  | gridBeside _ _ _ h => rw [eval_eq_value, Interpretation.value_chain _ h]
  | number _ h => rw [(scale_denotes h hb).2, eval_const]
  | monomialNumber =>
    simp only [eval_ofMonomial, eval_var, eval_const, Monomial.eval]
    ring
  | monomials => rw [eval_mulMonomials (Everywhere.var_iff.mp ha) (Everywhere.var_iff.mp hb), eval_var, eval_var]
  | @monomialProduct m fs _ h => rw [eval_eq_value, Interpretation.value_prependFactor _ h, ← eval_eq_value, eval_ofMonomial,
      eval_var, eval_product]
  | productNumber => rw [eval_mulConstant, eval_product, eval_const, mul_comm]
  | product _ h =>
    obtain ⟨s, -, rfl⟩ := checkedProduct_eq_ok h
    rw [eval_product, List.map_append, List.prod_append, eval_factors, eval_product]
  | @intoRight _ _ ts us _ hus h =>
    obtain ⟨-, hs⟩ := sumOf_denotes_forall₂ hus h fun t ht u hu =>
      ⟨Everywhere.mul hP hu.1 collapse (hb.terms t ht), hu.2 collapse (hb.terms t ht)⟩
    rw [hs, eval_sum, List.sum_map_mul_left, eval_collapse]
  | @intoLeft _ _ ts us _ _ hus h =>
    obtain ⟨-, hs⟩ := sumOf_denotes_forall₂ hus h fun t ht u hu =>
      ⟨Everywhere.mul hP hu.1 (ha.terms t ht) hb, hu.2 (ha.terms t ht) hb⟩
    rw [hs, eval_sum, List.sum_map_mul_right]
  | @sums ts us zs done hzs h =>
    have left {p : Expr ℚ × Expr ℚ} (hp : p ∈ ts ×ˢ us) : DefinedAt ρ p.1 := ha.terms _ (List.mem_product.mp hp).1
    have right {p : Expr ℚ × Expr ℚ} (hp : p ∈ ts ×ˢ us) : DefinedAt ρ p.2 := hb.terms _ (List.mem_product.mp hp).2
    have hd := forall_mem_right hzs fun p hp z hz => Everywhere.mul hP hz.1 (left hp) (right hp)
    have hzero : ∀ e, DefinedAt ρ e → e.isZero = true → (numbers ρ).value e = 0 := by
      intro e he hz
      rw [← eval_eq_value]
      exact isZero_denotes hz he
    have hsum := (Interpretation.value_crossTerms (numbers_adds ρ) hzero h hd).2
    have hprod := (numbers ρ).sum_map_product ts us
    rw [← eval_eq_value] at hsum hprod
    rw [eval_ofTerms, eval_sum, eval_sum, ← hprod, hsum, map_eq_map_of_mem hzs fun p hp z hz => hz.2 (left hp) (right hp)]

theorem mul_denotes (h : a.mul b = .ok c) (ha : DefinedAt ρ a) (hb : DefinedAt ρ b) :
    Denotes ρ c (eval ρ a * eval ρ b) :=
  ⟨Everywhere.mul (assigned_kept ρ) h ha hb,
    mul_induction (R := fun x y z => DefinedAt ρ x → DefinedAt ρ y → eval ρ z = eval ρ x * eval ρ y)
      (fun _ _ _ h => eval_mulCase h) h ha hb⟩

/-- Multiplying by one value after the other. -/
theorem foldlM_mul_denotes {fs : List (Expr ℚ)} (h : fs.foldlM mul a = .ok c) (ha : DefinedAt ρ a)
    (hf : ∀ f ∈ fs, DefinedAt ρ f) : Denotes ρ c (eval ρ a * (fs.map (eval ρ)).prod) := by
  refine foldlM_induction (P := fun done c => Denotes ρ c (eval ρ a * (done.map (eval ρ)).prod)) h ⟨ha, by simp⟩ ?_
  rintro done x s s' hx ⟨hs, he⟩ h
  obtain ⟨hs', he'⟩ := mul_denotes h hs (hf x hx)
  exact ⟨hs', by rw [he', he]; simp [mul_assoc]⟩

/-! ## Division -/

/-- A divisor must not stand for zero. It cannot if no name does: whether it is zero is then plain to
    see, as long as there is something to divide. -/
def Divisible (ρ : String → ℚ) (v : ℚ) : Prop := v ≠ 0 ∨ ∀ n, ρ n ≠ 0

theorem recipMonomial_ne_zero {n r : Monomial ℚ} (h : recipMonomial n = .ok r) (hρ : ∀ n, ρ n ≠ 0) : n.eval ρ ≠ 0 := by
  obtain ⟨hq, -⟩ := recipMonomial_eq_ok.mp h
  exact mul_ne_zero (by simpa using hq) (zpow_ne_zero _ (hρ n.name))

/-- The reciprocal of what does not stand for zero is defined. -/
theorem recipMonomial_denotes {m r : Monomial ℚ} (h : recipMonomial m = .ok r) (hm : m.DefinedAt ρ)
    (h0 : Divisible ρ (m.eval ρ)) : r.DefinedAt ρ ∧ r.eval ρ = 1 / m.eval ρ := by
  have h0 : m.eval ρ ≠ 0 := h0.elim id (recipMonomial_ne_zero h)
  obtain ⟨-, rfl⟩ := recipMonomial_eq_ok.mp h
  obtain ⟨k, hk, hk'⟩ := hm
  refine ⟨⟨-k, by simp [Monomial.recip, hk], fun hneg hz => h0 ?_⟩, ?_⟩
  · have hpow : ρ m.name ^ k = 0 := by
      rw [show ρ m.name = 0 from hz]
      exact zero_zpow k (by omega)
    rw [Monomial.eval, hk, Int.floor_intCast, hpow, mul_zero]
  · have : ⌊-(k : ℚ)⌋ = -k := by rw [← Int.cast_neg, Int.floor_intCast]
    simp only [Monomial.eval, Monomial.recip, hk, this, Int.floor_intCast, zpow_neg, one_div, mul_inv]

theorem divMonomials_denotes {m n : Monomial ℚ} (h : divMonomials m n = .ok c) (hm : m.DefinedAt ρ)
    (hn : n.DefinedAt ρ) (h0 : Divisible ρ (n.eval ρ)) : Denotes ρ c (m.eval ρ / n.eval ρ) := by
  obtain ⟨r, hr, h⟩ := bind_eq_ok.mp h
  cases pure_eq_ok.mp h
  obtain ⟨hd, hr⟩ := recipMonomial_denotes hr hn h0
  exact ⟨Everywhere.mulMonomials (assigned_kept ρ) hm hd, by rw [eval_mulMonomials hm hd, hr, mul_one_div]⟩

theorem divFactors_denotes {fs : List (Expr ℚ)} {n : Monomial ℚ} (h : divFactors fs n = .ok c)
    (hf : ∀ f ∈ fs, DefinedAt ρ f) (hn : n.DefinedAt ρ) (h0 : Divisible ρ (n.eval ρ)) :
    Denotes ρ c ((fs.map (eval ρ)).prod / n.eval ρ) := by
  rcases divFactors_cases h with ⟨r, hr, h⟩ | ⟨xs, m, ys, q, rfl, hq, h⟩
  · obtain ⟨hd, hr⟩ := recipMonomial_denotes hr hn h0
    refine ⟨Everywhere.checkedProduct h (List.forall_mem_append.mpr ⟨hf, by simpa using Everywhere.var hd⟩), ?_⟩
    obtain ⟨s, -, rfl⟩ := checkedProduct_eq_ok h
    simp [hr, div_eq_mul_inv]
  · obtain ⟨hxs, hm⟩ := List.forall_mem_append.mp hf
    obtain ⟨hm, hys⟩ := List.forall_mem_cons.mp hm
    obtain ⟨hd, hq⟩ := divMonomials_denotes hq (Everywhere.var_iff.mp hm) hn h0
    have hprod : ((xs ++ Expr.var m :: ys).map (eval ρ)).prod / n.eval ρ =
        (xs.map (eval ρ)).prod * (eval ρ q * (ys.map (eval ρ)).prod) := by
      rw [hq, List.map_append, List.map_cons, List.prod_append, List.prod_cons, eval_var]
      ring
    rw [hprod]
    rcases h with ⟨v, rfl, h⟩ | rfl
    · obtain ⟨hc, hv⟩ := foldlM_mul_denotes h hd (List.forall_mem_append.mpr ⟨hxs, hys⟩)
      refine ⟨hc, ?_⟩
      rw [hv, List.map_append, List.prod_append]
      ring
    · exact ⟨.product (List.forall_mem_append.mpr ⟨hxs, List.forall_mem_cons.mpr ⟨hd, hys⟩⟩), by simp⟩

/-- The law of division. -/
def Divides (ρ : String → ℚ) (a b c : Expr ℚ) : Prop :=
  DefinedAt ρ a → DefinedAt ρ b → Divisible ρ (eval ρ b) → Denotes ρ c (eval ρ a / eval ρ b)

theorem quotients_denotes {gs : List (Expr ℚ)} {q c : Expr ℚ} {R : Expr ℚ → Expr ℚ → Expr ℚ → Prop}
    (h : Quotients (fun x y z => R x y z ∧ Divides ρ x y z) gs q c) (hq : DefinedAt ρ q)
    (hg : ∀ g ∈ gs, DefinedAt ρ g) (h0 : Divisible ρ (gs.map (eval ρ)).prod) :
    Denotes ρ c (eval ρ q / (gs.map (eval ρ)).prod) := by
  induction h with
  | nil => exact ⟨hq, by simp⟩
  | cons hd _ ih =>
    obtain ⟨hg, hgs⟩ := List.forall_mem_cons.mp hg
    rw [List.map_cons, List.prod_cons] at h0 ⊢
    obtain ⟨hq', he⟩ := hd.2 hq hg (h0.imp_left left_ne_zero_of_mul)
    rw [← div_div, ← he]
    exact ih hq' hgs (h0.imp_left right_ne_zero_of_mul)

theorem divides_of_case (h : DivCase (fun x y z => x.div y = .ok z ∧ Divides ρ x y z) a b c) : Divides ρ a b c := by
  intro ha hb h0
  have hP := assigned_kept ρ
  have collapse : DefinedAt ρ a.collapse := Everywhere.collapse ha
  cases h with
  | grid _ hcells =>
    obtain ⟨x, rfl, hx⟩ := ha.cell
    obtain ⟨z, hz, rfl⟩ := forall₂_singleton_left hcells
    obtain ⟨hd, he⟩ := hz.2 hx hb h0
    exact ⟨.matrix ⟨rfl, rfl, rfl⟩ (List.forall_mem_singleton.mpr hd), by rw [eval_cell, eval_cell, he]⟩
  | numbers => exact ⟨.const _, by simp⟩
  | zeroNumber hv => exact ⟨ha, by simp [Rational.nearZero_iff.mp hv]⟩
  | @numberMonomial v n r hr =>
    obtain ⟨hd, hr⟩ := recipMonomial_denotes hr (Everywhere.var_iff.mp hb) (by simpa using h0)
    refine ⟨Everywhere.ofMonomial fun hq _ => hP.quantity hq hd, ?_⟩
    rw [eval_ofMonomial, Monomial.eval_quantity, eval_const, eval_var, mul_right_comm, r.eval_bare, hr]
    ring
  | @monomialNumber m w =>
    refine ⟨Everywhere.ofMonomial fun hq _ => hP.quantity hq (Everywhere.var_iff.mp ha), ?_⟩
    rw [eval_ofMonomial, Monomial.eval_quantity, eval_const, eval_var, mul_right_comm, m.eval_bare]
    ring
  | monomials h => exact divMonomials_denotes h (Everywhere.var_iff.mp ha) (Everywhere.var_iff.mp hb) (by simpa using h0)
  | productNumber =>
    refine ⟨Everywhere.mulConstant ha.factors, ?_⟩
    rw [eval_mulConstant, eval_product, eval_const]
    ring
  | productMonomial h =>
    rw [eval_product, eval_var]
    exact divFactors_denotes h ha.factors (Everywhere.var_iff.mp hb) (by simpa using h0)
  | byProduct _ _ h =>
    rw [eval_product] at h0 ⊢
    rw [← eval_collapse a]
    exact quotients_denotes h collapse hb.factors h0
  | @sum ts us _ _ _ hus h =>
    obtain ⟨hc, hs⟩ := sumOf_denotes_forall₂ hus h fun t ht u hu => hu.2 (ha.terms t ht) hb h0
    refine ⟨hc, ?_⟩
    rw [hs, eval_sum]
    simp only [div_eq_mul_inv]
    rw [List.sum_map_mul_right]

theorem div_denotes (h : a.div b = .ok c) (ha : DefinedAt ρ a) (hb : DefinedAt ρ b) (h0 : Divisible ρ (eval ρ b)) :
    Denotes ρ c (eval ρ a / eval ρ b) :=
  div_induction (R := Divides ρ) (fun _ _ _ _ _ h => divides_of_case h) h ha hb h0

/-! ## The zero test -/

/-- What tests as zero is zero, whatever numbers the names stand for, provided that a name with a
    negative exponent does not stand for zero. -/
theorem isZero_sound {e : Expr ℚ} (hgrid : ∀ g, ¬ Occurs (.matrix g) e)
    (hwhole : ∀ m, Occurs (.var m) e → ∃ k : ℤ, m.exponent = k) (hzero : e.isZero = true) {ρ : String → ℚ}
    (hρ : ∀ m, Occurs (.var m) e → m.exponent < 0 → ρ m.name ≠ 0) : eval ρ e = 0 := by
  refine isZero_denotes hzero (Everywhere.iff_occurs.mpr ⟨fun m ho => ?_, fun g ho => absurd ho (hgrid g)⟩)
  obtain ⟨k, hk⟩ := hwhole m ho
  exact ⟨k, hk, fun hneg => hρ m ho (by rw [hk]; exact_mod_cast hneg)⟩

/-- Two sums that cancel term by term: `(1 / x + y) + (-1 / x - y)`, where all names are `2`. -/
theorem isZero_sound_nested :
    let e : Expr ℚ := .sum [.sum [.var ⟨"x", 1, -1⟩, .ofName "y"], .sum [.var ⟨"x", -1, -1⟩, .var ⟨"y", -1, 1⟩]]
    e.isZero = true ∧ eval (fun _ => 2) e = 0 := by
  intro e
  have hz : e.isZero = true := by cbv
  refine ⟨hz, isZero_sound (by simp [e, ofName]) (fun m ho => ?_) hz fun _ _ _ => by norm_num⟩
  have hm : m.exponent = -1 ∨ m.exponent = 1 := by
    simp only [e, ofName, occurs_sum, occurs_var, List.mem_cons, List.not_mem_nil, or_false, exists_eq_or_imp,
      exists_eq_left, reduceCtorEq, false_or, var.injEq] at ho
    rcases ho with (rfl | rfl) | rfl | rfl
    · exact Or.inl rfl
    · exact Or.inr rfl
    · exact Or.inl rfl
    · exact Or.inr rfl
  rcases hm with hm | hm
  · exact ⟨-1, by simp [hm]⟩
  · exact ⟨1, by simp [hm]⟩

/-! ## All operations -/

/-- Arithmetic preserves meaning: where both operands stand for numbers, the result of an operation
    stands for the result of the same operation on numbers. -/
theorem arithmetic_sound (ha : DefinedAt ρ a) (hb : DefinedAt ρ b) :
    (∀ c, a.add b = .ok c → Denotes ρ c (eval ρ a + eval ρ b)) ∧
      (∀ c, a.sub b = .ok c → Denotes ρ c (eval ρ a - eval ρ b)) ∧
      (∀ c, a.mul b = .ok c → Denotes ρ c (eval ρ a * eval ρ b)) ∧
      (∀ c, a.div b = .ok c → eval ρ b ≠ 0 → Denotes ρ c (eval ρ a / eval ρ b)) ∧
      Denotes ρ a.neg (-eval ρ a) :=
  ⟨fun _ h => add_denotes h ha hb, fun _ h => sub_denotes h ha hb, fun _ h => mul_denotes h ha hb,
    fun _ h h0 => div_denotes h ha hb (Or.inl h0), neg_denotes ha⟩

/-- `3 / x + 1` divided by `x`, where `x` is `2`. -/
theorem arithmetic_sound_quotient :
    Denotes (fun _ => 2) (.sum [.var ⟨"x", 3, -2⟩, .var ⟨"x", 1, -1⟩]) ((3 / 2 + 1) / 2) := by
  have ha : DefinedAt (fun _ => 2) (.sum [.var ⟨"x", 3, -1⟩, .const 1]) := by
    refine .sum (List.forall_mem_cons.mpr ⟨.var ⟨-1, by norm_num, fun _ => by norm_num⟩, by simp⟩)
  have hb : DefinedAt (fun _ => 2) (.var ⟨"x", 1, 1⟩) := .var ⟨1, by norm_num, by omega⟩
  have hv : eval (fun _ => 2) (.sum [.var ⟨"x", 3, -1⟩, .const 1]) = 3 / 2 + 1 := by
    have : ⌊(-1 : ℚ)⌋ = -1 := by norm_num
    simp [Monomial.eval, this]
    norm_num
  have hw : eval (fun _ => 2) (.var ⟨"x", 1, 1⟩) = 2 := by simp [Monomial.eval]
  have := (arithmetic_sound ha hb).2.2.2.1 (.sum [.var ⟨"x", 3, -2⟩, .var ⟨"x", 1, -1⟩]) (by cbv) (by rw [hw]; norm_num)
  rwa [hv, hw] at this

end SymbolicAlgebra.Expr
