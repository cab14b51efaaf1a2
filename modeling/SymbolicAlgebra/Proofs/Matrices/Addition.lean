/-
  SymbolicAlgebra.Proofs.Matrices.Addition — adding and scaling trees that stand for matrices.

  The sum of two matrices is a matrix and is read as the sum of both; a matrix that passes the test for
  zero is read as zero; a matrix times a number is read as that multiple. As for numbers the three laws
  (`AddsMatrices`, `VanishesAsMatrix`, `ScalesMatrices`) are proved together, each from the laws of the
  calls that it makes. What happens in the cells of grids follows from the laws of numbers.

  Nothing like this holds when a number is added to a matrix: it would go into every cell.
-/

import SymbolicAlgebra.Proofs.Matrices.Readings

namespace SymbolicAlgebra.Expr

/-! ## The laws -/

section
variable (o : Option String) (s : Shape) (ρ : String → ℚ) {N : Nat} (M : Matrix (Fin N) (Fin N) ℚ)

def AddsMatrices (a b c : Expr ℚ) : Prop := AsMatrix o s ρ a → AsMatrix o s ρ b →
  AsMatrix o s ρ c ∧ (matrices o ρ M).value c = (matrices o ρ M).value a + (matrices o ρ M).value b

def VanishesAsMatrix (e : Expr ℚ) : Prop := AsMatrix o s ρ e → (matrices o ρ M).value e = 0

/-- Zero times a number may stand for the matrix of zeros. -/
def ScalesMatrices (v : ℚ) (e c : Expr ℚ) : Prop := AsMatrix o s ρ e ∨ v = 0 ∧ AsNumber o s ρ e →
  AsMatrix o s ρ c ∧ (matrices o ρ M).value c = v • (matrices o ρ M).value e

end

variable {o : Option String} {s : Shape} {ρ : String → ℚ} {N : Nat} {M : Matrix (Fin N) (Fin N) ℚ} {a b c e : Expr ℚ}

/-! ## Cells -/

theorem AsNumber.isSorted (h : AsNumber o s ρ e) : IsSorted o s e := Or.inl h.1

theorem AsMatrix.isSorted (h : AsMatrix o s ρ e) : IsSorted o s e := Or.inr h.1

theorem asMatrix_zero : AsMatrix o s ρ (.const 0) := ⟨isMatrix_zero, .const 0⟩

theorem AsMatrix.collapse (h : AsMatrix o s ρ e) : AsMatrix o s ρ e.collapse := ⟨h.1.collapse, Everywhere.collapse h.2⟩

theorem AsNumber.terms {ts : List (Expr ℚ)} (h : AsNumber o s ρ (.sum ts)) : ∀ t ∈ ts, AsNumber o s ρ t :=
  fun t ht => ⟨Everywhere.sum_iff.mp h.1 t ht, h.2.terms t ht⟩

theorem AsNumber.factors {fs : List (Expr ℚ)} (h : AsNumber o s ρ (.product fs)) : ∀ f ∈ fs, AsNumber o s ρ f :=
  fun f hf => ⟨Everywhere.product_iff.mp h.1 f hf, h.2.factors f hf⟩

theorem AsMatrix.terms {ts : List (Expr ℚ)} (h : AsMatrix o s ρ (.sum ts)) : ∀ t ∈ ts, AsMatrix o s ρ t :=
  fun t ht => ⟨isMatrix_sum.mp h.1 t ht, Everywhere.sum_iff.mp h.2 t ht⟩

theorem AsMatrix.cells {g : Grid (Expr ℚ)} (h : AsMatrix o s ρ (.matrix g)) : ∀ x ∈ g.cells, AsNumber o s ρ x := by
  intro x hx
  have hn := (isMatrix_matrix.mp h.1).2.2.2 x hx
  exact ⟨hn, hn.definedAt ((Everywhere.matrix_iff.mp h.2).2 x hx)⟩

/-- A matrix that has the shape of a single number is one. -/
theorem AsMatrix.asNumber (h : AsMatrix none s ρ e) (ht : e.shape = .ok .scalar) : AsNumber none s ρ e :=
  ⟨h.1.isNumber ht, (h.1.isNumber ht).definedAt h.2⟩

theorem AsNumber.asMatrix_grid {g : Grid (Expr ℚ)} (h : AsNumber o s ρ (.matrix g)) : AsMatrix o s ρ (.matrix g) :=
  ⟨h.1.isMatrix_grid, h.2.defined⟩

theorem add_numbers {n : Nat} (h : (Calls.upTo n).add a b = .ok c) (ha : AsNumber o s ρ a) (hb : AsNumber o s ρ b) :
    AsNumber o s ρ c ∧ eval ρ c = eval ρ a + eval ρ b := by
  obtain ⟨hd, he⟩ := ((additive_laws ρ).within n).add h ha.2 hb.2
  exact ⟨⟨((Everywhere.additive (plain_kept o s)).within n).add h ha.1 hb.1, hd⟩, he⟩

theorem scale_numbers {n : Nat} {v : ℚ} (h : (Calls.upTo n).scale v e = .ok c) (he : AsNumber o s ρ e) :
    AsNumber o s ρ c ∧ eval ρ c = v * eval ρ e := by
  obtain ⟨hd, hv⟩ := ((additive_laws ρ).within n).scale h he.2
  exact ⟨⟨((Everywhere.additive (plain_kept o s)).within n).scale h he.1, hd⟩, hv⟩

/-- A grid worked on cell by cell is one of the same shape. -/
theorem AsMatrix.map {g : Grid (Expr ℚ)} {cells : List (Expr ℚ)} {R : Expr ℚ → Expr ℚ → Prop} {f : ℚ → ℚ}
    (h : AsMatrix o s ρ (.matrix g)) (hcells : List.Forall₂ R g.cells cells)
    (hR : ∀ x y, AsNumber o s ρ x → R x y → AsNumber o s ρ y ∧ eval ρ y = f (eval ρ x)) :
    AsMatrix o s ρ (.matrix ⟨g.rows, g.cols, cells⟩) ∧
      (matrices o ρ M).value (.matrix ⟨g.rows, g.cols, cells⟩) = Grid.padded N ((g.map (eval ρ)).map f) := by
  have hnumbers := forall_mem_right hcells fun x hx y hy => (hR x y (h.cells x hx) hy).1
  refine ⟨⟨h.1.cells hcells fun x hx y _ hy => (hR x y (h.cells x hx) hy).1.1, ?_⟩, ?_⟩
  · exact .matrix trivial fun y hy => (hnumbers y hy).2.defined
  · rw [Interpretation.value_matrix]
    exact congrArg (Grid.padded N) (map_cells hcells fun x hx y hy => (hR x y (h.cells x hx) hy).2)

/-- The sum of grids of one shape is that of matrices. -/
theorem add_grids {n : Nat} {g k : Grid (Expr ℚ)} {cells : List (Expr ℚ)} (hs : g.shape = k.shape)
    (hcells : List.Forall₂ (fun p c => (Calls.upTo n).add p.1 p.2 = .ok c) (g.cells.zip k.cells) cells)
    (hg : AsMatrix o s ρ (.matrix g)) (hk : AsMatrix o s ρ (.matrix k)) :
    IsMatrix o s (.matrix ⟨g.rows, g.cols, cells⟩) ∧ (matrices o ρ M).value (.matrix ⟨g.rows, g.cols, cells⟩) =
      (matrices o ρ M).value (.matrix g) + (matrices o ρ M).value (.matrix k) := by
  obtain ⟨ho, hsg, hfg, -⟩ := isMatrix_matrix.mp hg.1
  obtain ⟨-, -, hfk, -⟩ := isMatrix_matrix.mp hk.1
  have hcell : ∀ p ∈ g.cells.zip k.cells, ∀ y, (Calls.upTo n).add p.1 p.2 = .ok y →
      AsNumber o s ρ y ∧ eval ρ y = eval ρ p.1 + eval ρ p.2 := by
    intro p hp y hy
    exact add_numbers hy (hg.cells _ (List.of_mem_zip hp).1) (hk.cells _ (List.of_mem_zip hp).2)
  have hlength : cells.length = g.rows * g.cols := by
    have hk : k.cells.length = g.rows * g.cols := by
      rw [show k.cells.length = k.rows * k.cols from hfk, show g.rows = k.rows from Grid.rows_of_shape hs,
        show g.cols = k.cols from Grid.cols_of_shape hs]
    rw [← hcells.length_eq, List.length_zip, show g.cells.length = g.rows * g.cols from hfg, hk, min_self]
  refine ⟨isMatrix_matrix.mpr ⟨ho, hsg, hlength, forall_mem_right hcells fun p hp y hy => (hcell p hp y hy).1.1⟩, ?_⟩
  have hmap : cells.map (eval ρ) = List.zipWith (· + ·) (g.cells.map (eval ρ)) (k.cells.map (eval ρ)) := by
    rw [map_eq_map_of_mem hcells fun p hp y hy => (hcell p hp y hy).2, List.zipWith_map, List.zip, List.map_zipWith]
  show Grid.padded N ⟨g.rows, g.cols, cells.map (eval ρ)⟩ = _
  rw [hmap]
  exact Grid.padded_zip (g := g.map (eval ρ)) (h := k.map (eval ρ)) hs (hfg.map _) (hfk.map _)

theorem value_neg (e : Expr ℚ) : (matrices o ρ M).value e.neg = -(matrices o ρ M).value e := by
  refine Interpretation.value_neg _ (fun g _ => ?_) e
  have hmap : (g.map neg).map (eval ρ) = (g.map (eval ρ)).map (-1 * ·) := by
    simp [Grid.map, Function.comp_def]
  show Grid.padded N ((g.map neg).map (eval ρ)) = -Grid.padded N (g.map (eval ρ))
  rw [hmap, Grid.padded_map, neg_one_smul]

theorem AsMatrix.neg (h : AsMatrix o s ρ e) : AsMatrix o s ρ e.neg := ⟨h.1.neg, Everywhere.neg (defined_kept ρ) h.2⟩

theorem AsMatrix.product {fs : List (Expr ℚ)} (h : ∀ f ∈ fs, IsSorted o s f) (hm : ∃ f ∈ fs, IsMatrix o s f)
    (hd : ∀ f ∈ fs, Defined ρ f) : AsMatrix o s ρ (.product fs) := ⟨isMatrix_product.mpr ⟨h, hm⟩, .product hd⟩

/-! ## Addition -/

section
variable (hN : s.Fits N) {n : Nat}
  (hcall : (Calls.upTo n).Obeys (AddsMatrices o s ρ M) (VanishesAsMatrix o s ρ M) (ScalesMatrices o s ρ M))

include hcall in
theorem matrices_adds_of_calls : (matrices o ρ M).Adds (AsMatrix o s ρ) (Calls.upTo n).add :=
  fun _ _ _ ha hb h => hcall.add h ha hb

include hcall in
theorem matrices_detects_of_calls : (matrices o ρ M).Detects (AsMatrix o s ρ) (Calls.upTo n).isZero :=
  fun _ he h => hcall.isZero h he

include hcall in
theorem addToSum_matrices {ts : List (Expr ℚ)} (h : (Calls.upTo n).addToSum ts b = .ok c)
    (hts : ∀ x ∈ ts, AsMatrix o s ρ x) (hb : AsMatrix o s ρ b) :
    IsMatrix o s c ∧ (matrices o ρ M).value c = (ts.map (matrices o ρ M).value).sum + (matrices o ρ M).value b := by
  have hterms : ∀ t ∈ b.terms, AsMatrix o s ρ t := by
    intro t ht
    refine ⟨?_, Everywhere.terms hb.2 t ht⟩
    cases b with
    | sum us => exact isMatrix_sum.mp hb.1 t ht
    | _ => exact List.mem_singleton.mp ht ▸ hb.1
  obtain ⟨us, hus, rfl, hv⟩ := Interpretation.value_addToSum (matrices_adds_of_calls hcall)
    (matrices_detects_of_calls hcall) h hts hterms
  exact ⟨isMatrix_ofTerms fun u hu => (hus u hu).1, hv⟩

include hcall in
theorem scaleFactors_matrices {v : ℚ} {fs : List (Expr ℚ)} (h : (Calls.upTo n).scaleFactors v fs = .ok c)
    (hf : ∀ f ∈ fs, IsSorted o s f) (hd : ∀ f ∈ fs, Defined ρ f) (hm : v = 0 ∨ ∃ f ∈ fs, IsMatrix o s f) :
    IsMatrix o s c ∧ (matrices o ρ M).value c = v • (fs.map (matrices o ρ M).value).prod := by
  rcases Calls.scaleFactors_cases h with ⟨hv, rfl⟩ | ⟨hv, h⟩
  · exact ⟨isMatrix_zero, by simp [Rational.nearZero_iff.mp hv]⟩
  · have hm := hm.resolve_left (Rational.nearZero_eq_false_iff.mp hv)
    rcases h with ⟨rfl, rfl⟩ | ⟨f, rfl, hc⟩ | ⟨-, ⟨hv, rfl⟩ | rfl⟩
    · obtain ⟨f, hmem, -⟩ := hm
      cases hmem
    · obtain ⟨x, hx, hm⟩ := hm
      cases List.mem_singleton.mp hx
      have hf : AsMatrix o s ρ f := ⟨hm, hd f hx⟩
      rw [List.map_singleton, List.prod_singleton]
      rcases Calls.scaleFactor_cases hc with h | ⟨g, rfl, ⟨hv, rfl⟩ | ⟨hv, rfl⟩ | ⟨cells, hcells, rfl⟩⟩
      · obtain ⟨hc, hv⟩ := hcall.scale h (Or.inl hf)
        exact ⟨hc.1, hv⟩
      · exact ⟨hm, by rw [Rational.nearOne_iff.mp hv, one_smul]⟩
      · exact ⟨hm.neg, by rw [Rational.nearMinusOne_iff.mp hv, value_neg, neg_one_smul]⟩
      · obtain ⟨hc, hv⟩ := hf.map (M := M) hcells fun x y hx hy => scale_numbers hy hx
        exact ⟨hc.1, by rw [hv, Grid.padded_map]; rfl⟩
    · exact ⟨isMatrix_product.mpr ⟨hf, hm⟩, by rw [Interpretation.value_product, Rational.nearOne_iff.mp hv, one_smul]⟩
    · obtain ⟨f, hmem, hm⟩ := hm
      refine ⟨isMatrix_product.mpr ⟨List.forall_mem_cons.mpr ⟨isSorted_const v, hf⟩, f, List.mem_cons_of_mem _ hmem, hm⟩, ?_⟩
      simp

include hN hcall in
theorem addProducts_matrices {fs gs : List (Expr ℚ)} (h : (Calls.upTo n).addProducts fs gs = .ok c)
    (ha : AsMatrix o s ρ (.product fs)) (hb : AsMatrix o s ρ (.product gs)) :
    IsMatrix o s c ∧ (matrices o ρ M).value c =
      (fs.map (matrices o ρ M).value).prod + (gs.map (matrices o ρ M).value).prod := by
  rcases Calls.addProducts_cases h with h | ⟨hsame, h⟩
  · have hv := (matrices o ρ M).value_pair h
    obtain ⟨t, -, -, rfl⟩ := pair_eq_ok h
    refine ⟨isMatrix_sum.mpr (List.forall_mem_cons.mpr ⟨ha.1, List.forall_mem_singleton.mpr hb.1⟩), ?_⟩
    rw [hv, Interpretation.value_product, Interpretation.value_product]
  · obtain ⟨hfs, hmf⟩ := isMatrix_product.mp ha.1
    obtain ⟨-, hmg⟩ := isMatrix_product.mp hb.1
    have hsorted := isSorted_splitFrom (v := 1) hfs
    have hd := Everywhere.splitFrom (v := 1) (defined_kept ρ) (Everywhere.product_iff.mp ha.2)
    have hcomm := (matrices o ρ M).value_sameFactors hsame fun f hf g hg hsf _ =>
      commute_of_isScalar hN (hsorted f hf) (hsorted g hg) hsf
    -- Without a matrix among the factors that both have, both coefficients are zero.
    have hm : (splitCoefficient fs).1 + (splitCoefficient gs).1 = 0 ∨ ∃ f ∈ (splitCoefficient fs).2, IsMatrix o s f := by
      rcases isMatrix_splitFrom (v := 1) hmf with h0 | hm
      · rcases isMatrix_splitFrom (v := 1) hmg with h0' | ⟨g, hg, hm⟩
        · exact Or.inl (by rw [splitCoefficient, splitCoefficient, h0, h0', add_zero])
        · have hmem : g ∈ (splitCoefficient fs).2 := by
            rcases sameFactors_cases hsame with he | ⟨-, hp⟩
            · rw [he]
              exact hg
            · exact hp.mem_iff.mpr hg
          exact Or.inr ⟨g, hmem, hm⟩
      · exact Or.inr hm
    obtain ⟨hc, hv⟩ := scaleFactors_matrices hcall h hsorted hd hm
    refine ⟨hc, ?_⟩
    rw [hv, add_smul, Interpretation.value_splitCoefficient, hcomm, Interpretation.value_splitCoefficient]

include hN hcall

theorem addsMatrices_of_case (h : Calls.AddCase (.upTo n) a b c) : AddsMatrices o s ρ M a b c := by
  intro ha hb
  have hd : Defined ρ c := Everywhere.addCase (defined_kept ρ) ((Everywhere.additive (defined_kept ρ)).within n) h ha.2 hb.2
  suffices IsMatrix o s c ∧ (matrices o ρ M).value c = (matrices o ρ M).value a + (matrices o ρ M).value b from
    ⟨⟨this.1, hd⟩, this.2⟩
  cases h with
  | grids hs hcells => exact add_grids hs hcells ha hb
  -- What goes into every cell is a matrix in the shape of a number: it is zero, or the grid is one cell.
  | @gridScalar g b cells _ hs hcells =>
    obtain ⟨rfl, hsg, hfg, -⟩ := isMatrix_matrix.mp ha.1
    have hnumber := hb.asNumber hs
    obtain ⟨hc, hv⟩ := ha.map (M := M) (f := (· + eval ρ b)) hcells fun x y hx hy => add_numbers hy hx hnumber
    refine ⟨hc.1, ?_⟩
    rw [hv, padded_broadcast (s := s) hN hsg (hfg.map _) fun h1 => hb.1.eval_eq_zero hs h1 ρ, hnumber.1.value hN]
    rfl
  | @scalarGrid a k cells _ hs hcells =>
    obtain ⟨rfl, hsg, hfg, -⟩ := isMatrix_matrix.mp hb.1
    have hnumber := ha.asNumber hs
    obtain ⟨hc, hv⟩ := hb.map (M := M) (f := (· + eval ρ a)) hcells fun x y hx hy => by
      rw [add_comm]
      exact add_numbers hy hnumber hx
    refine ⟨hc.1, ?_⟩
    rw [hv, padded_broadcast (s := s) hN hsg (hfg.map _) fun h1 => ha.1.eval_eq_zero hs h1 ρ, hnumber.1.value hN, add_comm]
    rfl
  | zeroLeft _ hv => exact ⟨hb.1, by simp [Rational.nearZero_iff.mp hv]⟩
  | zeroRight _ _ hz =>
    have hzero : (matrices o ρ M).value b = 0 := hcall.isZero hz hb
    exact ⟨ha.1.collapse, by rw [hzero, Interpretation.value_collapse, add_zero]⟩
  | @numbers v w =>
    rw [isMatrix_const.mp ha.1, isMatrix_const.mp hb.1, add_zero]
    exact ⟨isMatrix_zero, by simp⟩
  | @monomials m k hl =>
    obtain ⟨hn, he⟩ := Bool.and_eq_true_iff.mp hl
    refine ⟨isMatrix_ofMonomial (ha.1.quantity _), ?_⟩
    have hn := eq_of_beq hn
    have he := Rational.near_iff.mp he
    rw [Interpretation.value_ofMonomial, Interpretation.value_var, Interpretation.value_var]
    simp only [Interpretation.monomial, hn, he, add_smul]
  | sumLeft _ h =>
    rw [Interpretation.value_sum]
    exact addToSum_matrices hcall h ha.terms hb
  | sumRight _ _ h =>
    rw [Interpretation.value_sum, ← (matrices o ρ M).value_collapse a, add_comm]
    exact addToSum_matrices hcall h hb.terms ha.collapse
  | products h =>
    rw [Interpretation.value_product, Interpretation.value_product]
    exact addProducts_matrices hN hcall h ha hb
  | beside h =>
    have hv := (matrices o ρ M).value_pair h
    obtain ⟨t, -, -, rfl⟩ := pair_eq_ok h
    refine ⟨isMatrix_sum.mpr (List.forall_mem_cons.mpr ⟨ha.1.collapse, List.forall_mem_singleton.mpr hb.1⟩), ?_⟩
    rw [hv, Interpretation.value_collapse]

/-! ## Scaling and the zero test -/

omit hN in
theorem scalesMatrices_of_case {v : ℚ} (h : Calls.ScaleCase (.upTo n) v e c) : ScalesMatrices o s ρ M v e c := by
  intro he
  have hd : Defined ρ c := by
    refine Everywhere.scaleCase (defined_kept ρ) ((Everywhere.additive (defined_kept ρ)).within n) h ?_
    exact he.elim (fun he => he.2) fun he => he.2.2.defined
  suffices IsMatrix o s c ∧ (matrices o ρ M).value c = v • (matrices o ρ M).value e from ⟨⟨this.1, hd⟩, this.2⟩
  have matrix : v ≠ 0 → AsMatrix o s ρ e := fun hv => he.resolve_right fun h0 => hv h0.1
  cases h with
  | grid hcells =>
    have he := he.elim id fun he => he.2.asMatrix_grid
    obtain ⟨hc, hv⟩ := he.map (M := M) hcells fun x y hx hy => scale_numbers hy hx
    exact ⟨hc.1, by rw [hv, Grid.padded_map]; rfl⟩
  | zero _ hv => exact ⟨isMatrix_zero, by simp [Rational.nearZero_iff.mp hv]⟩
  | one _ hv =>
    have hv := Rational.nearOne_iff.mp hv
    exact ⟨(matrix (by rw [hv]; exact one_ne_zero)).1, by rw [hv, one_smul]⟩
  | minusOne _ hv =>
    have hv := Rational.nearMinusOne_iff.mp hv
    have he := matrix (by rw [hv]; exact neg_ne_zero.mpr one_ne_zero)
    exact ⟨he.1.neg, by rw [hv, value_neg, neg_one_smul]⟩
  | @number w =>
    refine ⟨?_, by simp [mul_smul]⟩
    rcases he with he | he
    · rw [isMatrix_const.mp he.1, mul_zero]
      exact isMatrix_zero
    · rw [he.1, zero_mul]
      exact isMatrix_zero
  | @monomial m =>
    refine ⟨?_, by rw [Interpretation.value_ofMonomial, Interpretation.value_var, Interpretation.monomial_scaled]⟩
    rcases he with he | he
    · exact isMatrix_ofMonomial (he.1.quantity _)
    · rw [ofMonomial_of_zero (by simp [he.1])]
      exact isMatrix_zero
  | @sum ts us _ hus h =>
    have hterm : ∀ t ∈ ts, AsMatrix o s ρ t ∨ v = 0 ∧ AsNumber o s ρ t := by
      intro t ht
      rcases he with he | ⟨hv, he⟩
      · exact Or.inl (he.terms t ht)
      · exact Or.inr ⟨hv, he.terms t ht⟩
    obtain ⟨hc, hv⟩ := Interpretation.value_callSumOf_forall₂ (matrices_adds_of_calls hcall) hus h
      (fun t ht u hu => hcall.scale hu (hterm t ht)) asMatrix_zero
    refine ⟨hc.1, ?_⟩
    rw [hv, Interpretation.value_sum, List.smul_sum, List.map_map]
    rfl
  | @product fs =>
    rw [Interpretation.value_mulConstant, Interpretation.value_product]
    refine ⟨?_, rfl⟩
    rcases he with he | ⟨hv, he⟩
    · obtain ⟨hfs, hm⟩ := isMatrix_product.mp he.1
      exact isMatrix_mulConstant hfs (Or.inr hm)
    · exact isMatrix_mulConstant (he.isSorted.factors) (Or.inl hv)

theorem vanishesAsMatrix_of_isZeroStep (h : (Calls.upTo n).isZeroStep e = .ok true) : VanishesAsMatrix o s ρ M e := by
  intro he
  cases e with
  | const v => simp [isMatrix_const.mp he.1]
  | var m =>
    have hm : m.quantity = 0 := by simpa [Calls.isZeroStep] using h
    simp [Interpretation.monomial, hm]
  | sum ts =>
    exact Interpretation.value_of_isZeroStep_sum (matrices_adds_of_calls hcall) (matrices_detects_of_calls hcall) h he.terms
  | product fs =>
    obtain ⟨f, hf, hz⟩ := exists_of_anyM h
    rw [Interpretation.value_product]
    refine List.prod_eq_zero (List.mem_map.mpr ⟨f, hf, ?_⟩)
    have hd := Everywhere.product_iff.mp he.2 f hf
    rcases (isMatrix_product.mp he.1).1 f hf with hn | hm
    · have h0 : eval ρ f = 0 := ((additive_laws ρ).within n).isZero hz (hn.definedAt hd)
      rw [hn.value hN, h0, zero_smul]
    · exact hcall.isZero hz ⟨hm, hd⟩
  | matrix g =>
    have hcells : ∀ x ∈ g.cells, eval ρ x = 0 := fun x hx =>
      ((additive_laws ρ).within n).isZero (all_of_allM h x hx) (he.cells x hx).2
    have hmap : g.map (eval ρ) = (g.map (eval ρ)).map (0 * ·) := by
      unfold Grid.map
      congr 1
      rw [List.map_map]
      exact List.map_congr_left fun x hx => by rw [hcells x hx, Function.comp, zero_mul]
    show Grid.padded N (g.map (eval ρ)) = 0
    rw [hmap, Grid.padded_map, zero_smul]

end

/-! ## The operations -/

theorem matrix_laws (hN : s.Fits N) :
    AdditiveLaws (AddsMatrices o s ρ M) (VanishesAsMatrix o s ρ M) (ScalesMatrices o s ρ M) where
  add hcall h := addsMatrices_of_case hN hcall h
  isZero hcall h := vanishesAsMatrix_of_isZeroStep hN hcall h
  scale hcall h := scalesMatrices_of_case hcall h
  pair := by
    intro a b c h ha hb
    refine ⟨⟨?_, Everywhere.pair h ha.2 hb.2⟩, Interpretation.value_pair _ h⟩
    obtain ⟨t, -, -, rfl⟩ := pair_eq_ok h
    exact isMatrix_sum.mpr (List.forall_mem_cons.mpr ⟨ha.1, List.forall_mem_singleton.mpr hb.1⟩)
  chain := by
    intro v e c h he
    have hv := (matrices o ρ M).value_chain h
    have hd : Defined ρ c := Everywhere.chain h (.const v) (he.elim (fun he => he.2) fun he => he.2.2.defined)
    have hsorted : IsSorted o s e := he.elim (fun he => he.isSorted) fun he => he.2.isSorted
    obtain ⟨t, -, rfl⟩ := checkedProduct_eq_ok h
    refine ⟨⟨isMatrix_product.mpr ⟨List.forall_mem_cons.mpr ⟨isSorted_const v, hsorted.factors⟩, ?_⟩, hd⟩, ?_⟩
    · rcases he with he | he
      · obtain ⟨f, hf, hm⟩ := he.1.factors
        exact ⟨f, List.mem_cons_of_mem _ hf, hm⟩
      · exact ⟨_, List.mem_cons_self, by rw [he.1]; exact isMatrix_zero⟩
    · rw [hv, Interpretation.value_const, smul_one_mul]

theorem matrices_adds (hN : s.Fits N) : (matrices o ρ M).Adds (AsMatrix o s ρ) Expr.add :=
  fun _ _ _ ha hb h => (matrix_laws hN).of_add h ha hb

theorem add_matrices (hN : s.Fits N) (h : a.add b = .ok c) (ha : AsMatrix o s ρ a) (hb : AsMatrix o s ρ b) :
    AsMatrix o s ρ c ∧ (matrices o ρ M).value c = (matrices o ρ M).value a + (matrices o ρ M).value b :=
  (matrix_laws hN).of_add h ha hb

end SymbolicAlgebra.Expr
