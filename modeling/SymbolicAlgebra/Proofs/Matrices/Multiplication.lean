/-
  SymbolicAlgebra.Proofs.Matrices.Multiplication — products of matrices and numbers, and quotients by
  numbers.

  A product of which one operand is a matrix is a matrix, and is read as the product of both operands
  in their order (`mul_matrices`). With numbers on both sides it is a number, so the product of any two
  trees of a sort is read as their product (`mul_sorted`). A matrix divided by a number is a matrix
  (`div_matrices`).
-/

import SymbolicAlgebra.Proofs.Matrices.Addition

namespace SymbolicAlgebra

/-! ## Rows and columns -/

/-- The products of the cells of a row and of a column, as they are in the product of grids. -/
theorem Grid.map_row_zip_column {β : Type} {g h : Grid β} (hg : g.Filled) (hh : h.Filled) (hd : g.cols = h.rows)
    {i j : Nat} (hi : i < g.rows) (hj : j < h.cols) (f : β → ℚ) :
    (((g.row i).zip (h.transpose.row j)).map fun p => f p.1 * f p.2) =
      (List.range g.cols).map fun k => (g.map f).entry i k * (h.map f).entry k j := by
  refine List.ext_getElem? fun k => ?_
  by_cases hk : k < g.cols
  · obtain ⟨x, y, hx, hy, hxy⟩ := row_zip_column hg hh hd hi hj hk
    rw [List.getElem?_map, hxy]
    simp [hx, hy, hk, entry, get?_map]
  · rw [List.getElem?_eq_none (by rw [List.length_map, length_row_zip_column hg hh hd hi hj]; omega),
      List.getElem?_eq_none (by rw [List.length_map, List.length_range]; omega)]

namespace Expr

variable {o : Option String} {s : Shape} {ρ : String → ℚ} {N : Nat} {M : Matrix (Fin N) (Fin N) ℚ} {a b c e : Expr ℚ}

/-! ## Sorts of products -/

/-- A number or a matrix that is defined. -/
def AsSorted (o : Option String) (s : Shape) (ρ : String → ℚ) (e : Expr ℚ) : Prop := IsSorted o s e ∧ Defined ρ e

theorem AsNumber.asSorted (h : AsNumber o s ρ e) : AsSorted o s ρ e := ⟨h.isSorted, h.2.defined⟩

theorem AsMatrix.asSorted (h : AsMatrix o s ρ e) : AsSorted o s ρ e := ⟨h.isSorted, h.2⟩

theorem AsSorted.cases (h : AsSorted o s ρ e) : AsNumber o s ρ e ∨ AsMatrix o s ρ e := by
  obtain ⟨hn | hm, hd⟩ := h
  · exact Or.inl ⟨hn, hn.definedAt hd⟩
  · exact Or.inr ⟨hm, hd⟩

theorem AsSorted.collapse (h : AsSorted o s ρ e) : AsSorted o s ρ e.collapse := ⟨h.1.collapse, Everywhere.collapse h.2⟩

theorem AsSorted.terms {ts : List (Expr ℚ)} (h : AsSorted o s ρ (.sum ts)) : ∀ t ∈ ts, AsSorted o s ρ t :=
  fun t ht => ⟨(h.1.terms t ht).1, Everywhere.sum_iff.mp h.2 t ht⟩

theorem AsMatrix.factors {fs : List (Expr ℚ)} (h : AsMatrix o s ρ (.product fs)) :
    (∀ f ∈ fs, AsSorted o s ρ f) ∧ ∃ f ∈ fs, IsMatrix o s f := by
  obtain ⟨hsorted, hm⟩ := isMatrix_product.mp h.1
  exact ⟨fun f hf => ⟨hsorted f hf, Everywhere.product_iff.mp h.2 f hf⟩, hm⟩

/-- A grid among the trees of a sort is a matrix. -/
theorem AsSorted.grid {g : Grid (Expr ℚ)} (h : AsSorted o s ρ (.matrix g)) : AsMatrix o s ρ (.matrix g) := by
  rcases h.cases with hn | hm
  · exact hn.asMatrix_grid
  · exact hm

/-- Beside a grid there is no name for matrices, so what has the shape of a number is one. -/
theorem AsSorted.asNumber (h : AsSorted none s ρ e) (ht : e.shape = .ok .scalar) : AsNumber none s ρ e := by
  rcases h.cases with hn | hm
  · exact hn
  · exact hm.asNumber ht

theorem AsMatrix.ofFactors {fs : List (Expr ℚ)} (h : ∀ f ∈ fs, AsSorted o s ρ f) (hm : ∃ f ∈ fs, IsMatrix o s f) :
    AsMatrix o s ρ (.product fs) := .product (fun f hf => (h f hf).1) hm fun f hf => (h f hf).2

theorem isMatrix_factors (ha : IsSorted o s a) (hb : IsSorted o s b) (hm : IsMatrix o s a ∨ IsMatrix o s b) :
    IsMatrix o s (.product (a.factors ++ b.factors)) := by
  refine isMatrix_product.mpr ⟨List.forall_mem_append.mpr ⟨ha.factors, hb.factors⟩, ?_⟩
  rcases hm with hm | hm
  · obtain ⟨f, hf, hm⟩ := hm.factors
    exact ⟨f, List.mem_append_left _ hf, hm⟩
  · obtain ⟨f, hf, hm⟩ := hm.factors
    exact ⟨f, List.mem_append_right _ hf, hm⟩

theorem isMatrix_mulMonomials {m n : Monomial ℚ} (hm : IsSorted o s (.var m)) (hn : IsSorted o s (.var n))
    (h : IsMatrix o s (.var m) ∨ IsMatrix o s (.var n)) : IsMatrix o s (mulMonomials m n) := by
  have bare : ∀ {m : Monomial ℚ}, IsSorted o s (.var m) → IsSorted o s (ofMonomial m.bare) := by
    intro m hm
    rcases hm with hm | hm
    · exact isSorted_ofMonomial (Or.inl (.var ((plain_kept o s).bare (Everywhere.var_iff.mp hm))))
    · exact Or.inr (isMatrix_ofMonomial (hm.quantity 1))
  have hfs : ∀ f ∈ [ofMonomial m.bare, ofMonomial n.bare], IsSorted o s f := by simpa using ⟨bare hm, bare hn⟩
  have hmatrix : ∃ f ∈ [ofMonomial m.bare, ofMonomial n.bare], IsMatrix o s f := by
    rcases h with h | h
    · exact ⟨_, List.mem_cons_self, isMatrix_ofMonomial (h.quantity 1)⟩
    · exact ⟨_, List.mem_cons_of_mem _ List.mem_cons_self, isMatrix_ofMonomial (h.quantity 1)⟩
  rcases mulMonomials_cases m n with ⟨hname, hc⟩ | ⟨-, hc⟩ | ⟨-, hc⟩ | hc
  · -- Both have the one name, which is that of the matrix, and its powers are positive.
    rw [hc]
    obtain ⟨ho, k, hk, hek⟩ : o = some m.name ∧ ∃ k : ℕ, 0 < k ∧ m.exponent = k := by
      rcases h with h | h
      · exact isMatrix_var.mp h
      · obtain ⟨ho, -⟩ := isMatrix_var.mp h
        refine isMatrix_var.mp (hm.resolve_left fun hm => Everywhere.var_iff.mp hm ?_)
        rw [ho, hname]
    obtain ⟨-, l, hl, hel⟩ := isMatrix_var.mp (hn.resolve_left fun hn => Everywhere.var_iff.mp hn (by rw [ho, hname]))
    refine isMatrix_ofMonomial (isMatrix_var.mpr ⟨ho, k + l, by omega, ?_⟩)
    rw [hek, hel, Nat.cast_add]
  · exact hc ▸ isMatrix_zero
  · exact hc ▸ isMatrix_product.mpr ⟨hfs, hmatrix⟩
  · obtain ⟨f, hf, hm⟩ := hmatrix
    rw [hc]
    exact isMatrix_product.mpr ⟨List.forall_mem_cons.mpr ⟨isSorted_const _, hfs⟩, f, List.mem_cons_of_mem _ hf, hm⟩

theorem isMatrix_prependFactor {fs : List (Expr ℚ)} (h : prependFactor a fs = .ok c) (ha : IsSorted o s a)
    (hfs : ∀ f ∈ fs, IsSorted o s f) (hm : IsMatrix o s a ∨ ∃ f ∈ fs, IsMatrix o s f) : IsMatrix o s c := by
  rcases prependFactor_cases h with ⟨v, rfl, rfl⟩ | ⟨-, h⟩
  · exact isMatrix_mulConstant hfs (hm.imp_left isMatrix_const.mp)
  · obtain ⟨t, -, rfl⟩ := checkedProduct_eq_ok h
    refine isMatrix_product.mpr ⟨List.forall_mem_cons.mpr ⟨ha, hfs⟩, ?_⟩
    rcases hm with hm | ⟨f, hf, hm⟩
    · exact ⟨_, List.mem_cons_self, hm⟩
    · exact ⟨f, List.mem_cons_of_mem _ hf, hm⟩

/-- The powers of the matrix multiply by adding their exponents. -/
theorem value_mulMonomials_matrices {m n : Monomial ℚ} (hm : IsSorted o s (.var m)) (hn : IsSorted o s (.var n))
    (h : IsMatrix o s (.var m) ∨ IsMatrix o s (.var n)) :
    (matrices o ρ M).value (mulMonomials m n) = (matrices o ρ M).value (.var m) * (matrices o ρ M).value (.var n) := by
  rw [Interpretation.value_var, Interpretation.value_var]
  refine (matrices o ρ M).value_mulMonomials fun hname => ?_
  have matrix : ∀ {m : Monomial ℚ}, IsSorted o s (.var m) → o = some m.name →
      ∃ k : ℕ, m.exponent = k ∧ (matrices o ρ M).power m.name ⌊m.exponent⌋ = M ^ k := by
    intro m hm ho
    obtain ⟨-, k, -, hk⟩ := isMatrix_var.mp (hm.resolve_left fun hm => Everywhere.var_iff.mp hm ho)
    refine ⟨k, hk, (if_pos ho).trans ?_⟩
    rw [hk, Int.floor_natCast, Int.toNat_natCast]
  have ho : o = some m.name := by
    rcases h with h | h
    · exact (isMatrix_var.mp h).1
    · rw [(isMatrix_var.mp h).1, hname]
  obtain ⟨k, hk, hpk⟩ := matrix hm ho
  obtain ⟨l, hl, hpl⟩ := matrix hn (by rw [ho, hname])
  rw [hpk, hpl, ← pow_add, hk, hl, ← Nat.cast_add, Int.floor_natCast]
  exact (if_pos ho).trans (by rw [Int.toNat_natCast])

/-! ## Multiplication -/

theorem mul_numbers (h : a.mul b = .ok c) (ha : AsNumber o s ρ a) (hb : AsNumber o s ρ b) :
    AsNumber o s ρ c ∧ eval ρ c = eval ρ a * eval ρ b := by
  obtain ⟨hd, he⟩ := mul_denotes h ha.2 hb.2
  exact ⟨⟨Everywhere.mul (plain_kept o s) h ha.1 hb.1, hd⟩, he⟩

/-- The law of multiplication by or of a matrix. -/
def MultipliesMatrices (o : Option String) (s : Shape) (ρ : String → ℚ) (M : Matrix (Fin N) (Fin N) ℚ) (a b c : Expr ℚ) :
    Prop := AsSorted o s ρ a → AsSorted o s ρ b → IsMatrix o s a ∨ IsMatrix o s b →
      IsMatrix o s c ∧ (matrices o ρ M).value c = (matrices o ρ M).value a * (matrices o ρ M).value b

/-- A row times a column stands for the sum of the products. -/
theorem row_column_denotes {g k : Grid (Expr ℚ)} (hg : g.Filled) (hk : k.Filled) (hd : g.cols = k.rows) {i j : Nat}
    (hi : i < g.rows) (hj : j < k.cols)
    (h : Dot (fun x y z => x.mul y = .ok z) ((g.row i).zip (k.transpose.row j)) (.const 0) c)
    (hpairs : ∀ q ∈ (g.row i).zip (k.transpose.row j), DefinedAt ρ q.1 ∧ DefinedAt ρ q.2) :
    Denotes ρ c ((List.range g.cols).map fun l => (g.map (eval ρ)).entry i l * (k.map (eval ρ)).entry l j).sum := by
  obtain ⟨hc, he⟩ := dot_denotes (h.mono fun x y z hz => ⟨hz, fun hx hy => (mul_denotes hz hx hy).2⟩) hpairs (.const 0)
  refine ⟨hc, ?_⟩
  rw [he, eval_const, zero_add, Grid.map_row_zip_column hg hk hd hi hj]

/-- The product of grids is that of matrices. -/
theorem mul_grids (hN : s.Fits N) {g k : Grid (Expr ℚ)} {cells : List (Expr ℚ)} (hd : g.cols = k.rows)
    (h : List.Forall₂ (fun p c => Dot (fun x y z => x.mul y = .ok z) ((g.row p.1).zip (k.transpose.row p.2)) (.const 0) c)
      (Shape.places ⟨g.rows, k.cols⟩) cells) (ha : AsMatrix o s ρ (.matrix g)) (hb : AsMatrix o s ρ (.matrix k)) :
    IsMatrix o s (.matrix ⟨g.rows, k.cols, cells⟩) ∧ (matrices o ρ M).value (.matrix ⟨g.rows, k.cols, cells⟩) =
      (matrices o ρ M).value (.matrix g) * (matrices o ρ M).value (.matrix k) := by
  obtain ⟨ho, hsg, hfg, -⟩ := isMatrix_matrix.mp ha.1
  obtain ⟨-, hsk, hfk, -⟩ := isMatrix_matrix.mp hb.1
  have hpair : ∀ p : Nat × Nat, ∀ q ∈ (g.row p.1).zip (k.transpose.row p.2), AsNumber o s ρ q.1 ∧ AsNumber o s ρ q.2 := by
    intro p q hq
    obtain ⟨hx, hy⟩ := List.of_mem_zip hq
    exact ⟨ha.cells _ (Grid.mem_cells_of_mem_row hx),
      hb.cells _ (Grid.mem_cells_of_mem_transpose (Grid.mem_cells_of_mem_row hy))⟩
  have hcell : ∀ p ∈ Shape.places ⟨g.rows, k.cols⟩, ∀ y,
      Dot (fun x y z => x.mul y = .ok z) ((g.row p.1).zip (k.transpose.row p.2)) (.const 0) y →
        IsNumber o s y ∧ eval ρ y = ((List.range g.cols).map fun l =>
          (g.map (eval ρ)).entry p.1 l * (k.map (eval ρ)).entry l p.2).sum := by
    intro p hp y hy
    obtain ⟨hi, hj⟩ := Grid.mem_places hp
    constructor
    · refine Everywhere.dot (plain_kept o s) (hy.mono fun x y z hz => ⟨hz, Everywhere.mul (plain_kept o s) hz⟩) ?_ (.const 0)
      exact fun q hq => ⟨(hpair p q hq).1.1, (hpair p q hq).2.1⟩
    · exact (row_column_denotes hfg hfk hd hi hj hy fun q hq => ⟨(hpair p q hq).1.2, (hpair p q hq).2.2⟩).2
  have hs : Grid.shape ⟨g.rows, k.cols, cells⟩ = s := by
    rw [Grid.shape, Grid.rows_of_shape hsg, Grid.cols_of_shape hsk]
  have hlength : cells.length = g.rows * k.cols := by rw [← h.length_eq, Shape.length_places]
  refine ⟨isMatrix_matrix.mpr ⟨ho, hs, hlength, forall_mem_right h fun p hp y hy => (hcell p hp y hy).1⟩, ?_⟩
  have hmap : (⟨g.rows, k.cols, cells⟩ : Grid (Expr ℚ)).map (eval ρ) = (g.map (eval ρ)).dot (k.map (eval ρ)) := by
    unfold Grid.dot
    rw [Grid.map, map_eq_map_of_mem h fun p hp y hy => (hcell p hp y hy).2]
    rfl
  show Grid.padded N (Grid.map (eval ρ) ⟨g.rows, k.cols, cells⟩) = _
  rw [hmap]
  exact Grid.padded_dot (g := g.map (eval ρ)) (hN.cols_le hsg)

theorem AsNumber.value (hN : s.Fits N) (h : AsNumber o s ρ e) : (matrices o ρ M).value e = eval ρ e • 1 := h.1.value hN

theorem multipliesMatrices_of_case (hN : s.Fits N)
    (h : MulCase (fun x y z => x.mul y = .ok z ∧ MultipliesMatrices o s ρ M x y z) a b c) :
    MultipliesMatrices o s ρ M a b c := by
  intro ha hb hm
  have part : ∀ {x y z : Expr ℚ}, x.mul y = .ok z ∧ MultipliesMatrices o s ρ M x y z → AsSorted o s ρ x → AsSorted o s ρ y →
      IsMatrix o s x ∨ IsMatrix o s y →
      AsMatrix o s ρ z ∧ (matrices o ρ M).value z = (matrices o ρ M).value x * (matrices o ρ M).value y := by
    intro x y z hz hx hy hm
    obtain ⟨hz', hv⟩ := hz.2 hx hy hm
    exact ⟨⟨hz', Everywhere.mul (defined_kept ρ) hz.1 hx.2 hy.2⟩, hv⟩
  cases h with
  | grids hcols hcells =>
    refine mul_grids hN hcols (hcells.imp fun p y hy => hy.mono fun _ _ _ hz => hz.1) ha.grid hb.grid
  | @gridScalar g b cells _ hs hcells =>
    obtain ⟨rfl, hsg, hfg, -⟩ := isMatrix_matrix.mp ha.grid.1
    have hb := hb.asNumber hs
    obtain ⟨hc, hv⟩ := ha.grid.map (M := M) (f := (eval ρ b * ·)) hcells fun x y hx hy => by
      rw [mul_comm]
      exact mul_numbers hy.1 hx hb
    refine ⟨hc.1, ?_⟩
    rw [hv, Grid.padded_map, hb.value hN, mul_smul_one]
    rfl
  | @scalarGrid a g cells _ hs hcells =>
    obtain ⟨rfl, hsg, hfg, -⟩ := isMatrix_matrix.mp hb.grid.1
    have ha := ha.asNumber hs
    obtain ⟨hc, hv⟩ := hb.grid.map (M := M) (f := (eval ρ a * ·)) hcells fun x y hx hy => mul_numbers hy.1 ha hx
    refine ⟨hc.1, ?_⟩
    rw [hv, Grid.padded_map, ha.value hN, smul_one_mul]
    rfl
  | besideGrid _ _ _ h =>
    have hv := (matrices o ρ M).value_chain h
    obtain ⟨t, -, rfl⟩ := checkedProduct_eq_ok h
    exact ⟨isMatrix_factors ha.1 hb.1 hm, hv⟩
  | gridBeside _ _ _ h =>
    have hv := (matrices o ρ M).value_chain h
    obtain ⟨t, -, rfl⟩ := checkedProduct_eq_ok h
    exact ⟨isMatrix_factors ha.1 hb.1 hm, hv⟩
  | @number v b c _ h =>
    -- If the number is the matrix, it is zero.
    have hb : AsMatrix o s ρ b ∨ v = 0 ∧ AsNumber o s ρ b := by
      rcases hb.cases with hn | hb
      · refine hm.symm.imp (fun hm => ⟨hm, hn.2.defined⟩) fun hm => ⟨isMatrix_const.mp hm, hn⟩
      · exact Or.inl hb
    obtain ⟨hc, hv⟩ := (matrix_laws (M := M) hN).of_scale h hb
    exact ⟨hc.1, by rw [hv, Interpretation.value_const, smul_one_mul]⟩
  | @monomialNumber m v =>
    refine ⟨?_, by rw [Interpretation.value_ofMonomial, Interpretation.monomial_scaled, Interpretation.value_var,
      Interpretation.value_const, mul_smul_one]⟩
    rcases hm with hm | hm
    · exact isMatrix_ofMonomial (hm.quantity _)
    · rw [ofMonomial_of_zero (by simp [isMatrix_const.mp hm])]
      exact isMatrix_zero
  | monomials => exact ⟨isMatrix_mulMonomials ha.1 hb.1 hm, value_mulMonomials_matrices ha.1 hb.1 hm⟩
  | @monomialProduct m fs _ h =>
    refine ⟨isMatrix_prependFactor h ha.collapse.1 hb.1.factors (hm.imp (fun hm => hm.collapse) fun hm => hm.factors), ?_⟩
    rw [Interpretation.value_prependFactor _ h, Interpretation.value_ofMonomial, Interpretation.value_var,
      Interpretation.value_product]
  | @productNumber fs v =>
    refine ⟨isMatrix_mulConstant ha.1.factors (hm.symm.imp isMatrix_const.mp fun hm => hm.factors), ?_⟩
    rw [Interpretation.value_mulConstant, Interpretation.value_product, Interpretation.value_const, mul_smul_one]
  | @product fs b c _ h =>
    have hv := (matrices o ρ M).value_checkedProduct h
    obtain ⟨t, -, rfl⟩ := checkedProduct_eq_ok h
    refine ⟨isMatrix_factors ha.1 hb.1 hm, ?_⟩
    rw [hv, List.map_append, List.prod_append, Interpretation.value_factors, Interpretation.value_product]
  | @intoRight a c ts us _ hus h =>
    obtain ⟨hc, hv⟩ := Interpretation.value_sumOf_forall₂ (matrices_adds (M := M) hN) hus h (fun t ht u hu =>
      part hu ha.collapse (hb.terms t ht) (hm.imp (fun hm => hm.collapse) fun hm => isMatrix_sum.mp hm t ht)) asMatrix_zero
    refine ⟨hc.1, ?_⟩
    rw [hv, Interpretation.value_sum, List.sum_map_mul_left, Interpretation.value_collapse]
  | @intoLeft b c ts us _ _ hus h =>
    obtain ⟨hc, hv⟩ := Interpretation.value_sumOf_forall₂ (matrices_adds (M := M) hN) hus h (fun t ht u hu =>
      part hu (ha.terms t ht) hb (hm.imp_left fun hm => isMatrix_sum.mp hm t ht)) asMatrix_zero
    refine ⟨hc.1, ?_⟩
    rw [hv, Interpretation.value_sum, List.sum_map_mul_right]
  | @sums ts us zs done hzs h =>
    have hterm : ∀ p ∈ ts ×ˢ us, ∀ z, p.1.mul p.2 = .ok z ∧ MultipliesMatrices o s ρ M p.1 p.2 z →
        AsMatrix o s ρ z ∧ (matrices o ρ M).value z = (matrices o ρ M).value p.1 * (matrices o ρ M).value p.2 := by
      intro p hp z hz
      obtain ⟨ht, hu⟩ := List.mem_product.mp hp
      exact part hz (ha.terms _ ht) (hb.terms _ hu) (hm.imp (fun hm => isMatrix_sum.mp hm _ ht) fun hm => isMatrix_sum.mp hm _ hu)
    obtain ⟨hdone, hsum⟩ := Interpretation.value_crossTerms (matrices_adds (M := M) hN)
      (fun e he hz => (matrix_laws hN).of_isZero hz he) h (forall_mem_right hzs fun p hp z hz => (hterm p hp z hz).1)
    refine ⟨isMatrix_ofTerms fun x hx => (hdone x hx).1, ?_⟩
    rw [Interpretation.value_ofTerms, hsum, map_eq_map_of_mem hzs fun p hp z hz => (hterm p hp z hz).2,
      Interpretation.sum_map_product, Interpretation.value_sum, Interpretation.value_sum]

theorem mul_matrices (hN : s.Fits N) (h : a.mul b = .ok c) (ha : AsSorted o s ρ a) (hb : AsSorted o s ρ b)
    (hm : IsMatrix o s a ∨ IsMatrix o s b) :
    AsMatrix o s ρ c ∧ (matrices o ρ M).value c = (matrices o ρ M).value a * (matrices o ρ M).value b := by
  obtain ⟨hc, hv⟩ := mul_induction (R := MultipliesMatrices o s ρ M) (fun _ _ _ h => multipliesMatrices_of_case hN h) h ha hb hm
  exact ⟨⟨hc, Everywhere.mul (defined_kept ρ) h ha.2 hb.2⟩, hv⟩

/-- A tree of a sort that is a matrix if this is claimed, and its reading. -/
def Reads (o : Option String) (s : Shape) (ρ : String → ℚ) (M : Matrix (Fin N) (Fin N) ℚ) (matrix : Prop) (e : Expr ℚ)
    (X : Matrix (Fin N) (Fin N) ℚ) : Prop := AsSorted o s ρ e ∧ (matrix → IsMatrix o s e) ∧ (matrices o ρ M).value e = X

theorem mul_sorted (hN : s.Fits N) (h : a.mul b = .ok c) (ha : AsSorted o s ρ a) (hb : AsSorted o s ρ b) :
    Reads o s ρ M (IsMatrix o s a ∨ IsMatrix o s b) c ((matrices o ρ M).value a * (matrices o ρ M).value b) := by
  by_cases hm : IsMatrix o s a ∨ IsMatrix o s b
  · obtain ⟨hc, hv⟩ := mul_matrices hN h ha hb hm
    exact ⟨hc.asSorted, fun _ => hc.1, hv⟩
  · obtain ⟨hna, hnb⟩ := not_or.mp hm
    have ha := ha.cases.resolve_right fun h => hna h.1
    have hb := hb.cases.resolve_right fun h => hnb h.1
    obtain ⟨hc, hv⟩ := mul_numbers h ha hb
    refine ⟨hc.asSorted, fun h => absurd h hm, ?_⟩
    rw [hc.value hN, hv, ha.value hN, hb.value hN, smul_mul_smul_comm, one_mul]

/-- Multiplying by one tree after the other. -/
theorem foldlM_mul_sorted (hN : s.Fits N) {fs : List (Expr ℚ)} (h : fs.foldlM mul a = .ok c) (ha : AsSorted o s ρ a)
    (hf : ∀ f ∈ fs, AsSorted o s ρ f) :
    Reads o s ρ M (IsMatrix o s a ∨ ∃ f ∈ fs, IsMatrix o s f) c
      ((matrices o ρ M).value a * (fs.map (matrices o ρ M).value).prod) := by
  refine foldlM_induction (P := fun done c => Reads o s ρ M (IsMatrix o s a ∨ ∃ f ∈ done, IsMatrix o s f) c
    ((matrices o ρ M).value a * (done.map (matrices o ρ M).value).prod)) h ⟨ha, by simp, by simp⟩ ?_
  rintro done x d d' hx ⟨hd, hm, hv⟩ h
  obtain ⟨hd', hm', hv'⟩ := mul_sorted (M := M) hN h hd (hf x hx)
  refine ⟨hd', fun hor => hm' ?_, by rw [hv', hv]; simp [mul_assoc]⟩
  rcases hor with h | ⟨f, hf, h⟩
  · exact Or.inl (hm (Or.inl h))
  · rcases List.mem_append.mp hf with hf | hf
    · exact Or.inl (hm (Or.inr ⟨f, hf, h⟩))
    · exact Or.inr (List.mem_singleton.mp hf ▸ h)

/-! ## Division -/

theorem div_numbers (h : a.div b = .ok c) (ha : AsNumber o s ρ a) (hb : AsNumber o s ρ b) (h0 : eval ρ b ≠ 0) :
    AsNumber o s ρ c ∧ eval ρ c = eval ρ a / eval ρ b := by
  obtain ⟨hd, he⟩ := div_denotes h ha.2 hb.2 (Or.inl h0)
  exact ⟨⟨Everywhere.div (plain_kept o s) (plain_reciprocal o s) h ha.1 hb.1, hd⟩, he⟩

/-- The reciprocal of a monomial that is a number. -/
theorem recipMonomial_number {n r : Monomial ℚ} (h : recipMonomial n = .ok r) (hn : AsNumber o s ρ (.var n))
    (h0 : n.eval ρ ≠ 0) : AsNumber o s ρ (.var r) ∧ eval ρ (.var r) = (n.eval ρ)⁻¹ := by
  obtain ⟨hd, he⟩ := recipMonomial_denotes h (Everywhere.var_iff.mp hn.2) (Or.inl h0)
  refine ⟨⟨?_, .var hd⟩, by rw [eval_var, he, one_div]⟩
  obtain ⟨-, rfl⟩ := recipMonomial_eq_ok.mp h
  have hname := Everywhere.var_iff.mp hn.1
  exact .var hname

theorem divMonomials_sorted (hN : s.Fits N) {m n : Monomial ℚ} (h : divMonomials m n = .ok c) (hm : AsSorted o s ρ (.var m))
    (hn : AsNumber o s ρ (.var n)) (h0 : n.eval ρ ≠ 0) :
    Reads o s ρ M (IsMatrix o s (.var m)) c ((n.eval ρ)⁻¹ • (matrices o ρ M).value (.var m)) := by
  obtain ⟨r, hr, h⟩ := bind_eq_ok.mp h
  obtain ⟨hr, he⟩ := recipMonomial_number hr hn h0
  have hmul : (Expr.var m).mul (.var r) = .ok c := by
    cases pure_eq_ok.mp h
    simp [mul]
  obtain ⟨hc, hm, hv⟩ := mul_sorted (M := M) hN hmul hm hr.asSorted
  exact ⟨hc, fun h => hm (Or.inl h), by rw [hv, hr.value hN, he, mul_smul_one]⟩

theorem divFactors_matrices (hN : s.Fits N) {fs : List (Expr ℚ)} {n : Monomial ℚ} (h : divFactors fs n = .ok c)
    (hf : AsMatrix o s ρ (.product fs)) (hn : AsNumber o s ρ (.var n)) (h0 : n.eval ρ ≠ 0) :
    AsMatrix o s ρ c ∧ (matrices o ρ M).value c = (n.eval ρ)⁻¹ • (fs.map (matrices o ρ M).value).prod := by
  obtain ⟨hfs, hm⟩ := hf.factors
  rcases divFactors_cases h with ⟨r, hr, h⟩ | ⟨xs, m, ys, q, rfl, hq, h⟩
  · obtain ⟨hr, he⟩ := recipMonomial_number hr hn h0
    have hv := (matrices o ρ M).value_checkedProduct h
    obtain ⟨t, -, rfl⟩ := checkedProduct_eq_ok h
    obtain ⟨f, hmem, hm⟩ := hm
    refine ⟨.ofFactors (List.forall_mem_append.mpr ⟨hfs, List.forall_mem_singleton.mpr hr.asSorted⟩)
      ⟨f, List.mem_append_left _ hmem, hm⟩, ?_⟩
    rw [hv, List.map_append, List.prod_append, List.map_singleton, List.prod_singleton, hr.value hN, he, mul_smul_one]
  · obtain ⟨hxs, hys⟩ := List.forall_mem_append.mp hfs
    obtain ⟨hmm, hys⟩ := List.forall_mem_cons.mp hys
    obtain ⟨hqs, hqm, hqv⟩ := divMonomials_sorted (M := M) hN hq hmm hn h0
    have hprod : (n.eval ρ)⁻¹ • ((xs ++ Expr.var m :: ys).map (matrices o ρ M).value).prod =
        (xs.map (matrices o ρ M).value).prod * ((matrices o ρ M).value q * (ys.map (matrices o ρ M).value).prod) := by
      rw [hqv, List.map_append, List.map_cons, List.prod_append, List.prod_cons, smul_mul_assoc, mul_smul_comm]
    rw [hprod]
    -- The matrix is the factor that was divided, or one of the others.
    have hm : IsMatrix o s q ∨ ∃ f ∈ xs ++ ys, IsMatrix o s f := by
      obtain ⟨f, hmem, hm⟩ := hm
      rcases List.mem_append.mp hmem with hx | hy
      · exact Or.inr ⟨f, List.mem_append_left _ hx, hm⟩
      · rcases List.mem_cons.mp hy with rfl | hy
        · exact Or.inl (hqm hm)
        · exact Or.inr ⟨f, List.mem_append_right _ hy, hm⟩
    rcases h with ⟨v, rfl, h⟩ | rfl
    · obtain ⟨hc, hcm, hv⟩ := foldlM_mul_sorted (M := M) hN h hqs (List.forall_mem_append.mpr ⟨hxs, hys⟩)
      refine ⟨⟨hcm hm, hc.2⟩, ?_⟩
      rw [hv, List.map_append, List.prod_append, Interpretation.value_const, smul_one_mul, smul_one_mul, mul_smul_comm]
    · refine ⟨.ofFactors (List.forall_mem_append.mpr ⟨hxs, List.forall_mem_cons.mpr ⟨hqs, hys⟩⟩) ?_, by simp⟩
      rcases hm with hm | ⟨f, hf, hm⟩
      · exact ⟨q, List.mem_append_right _ List.mem_cons_self, hm⟩
      · refine ⟨f, ?_, hm⟩
        rcases List.mem_append.mp hf with hf | hf
        · exact List.mem_append_left _ hf
        · exact List.mem_append_right _ (List.mem_cons_of_mem _ hf)

/-- The law of division of a matrix by a number. -/
def DividesMatrices (o : Option String) (s : Shape) (ρ : String → ℚ) (M : Matrix (Fin N) (Fin N) ℚ) (a b c : Expr ℚ) : Prop :=
  AsMatrix o s ρ a → AsNumber o s ρ b → eval ρ b ≠ 0 →
    AsMatrix o s ρ c ∧ (matrices o ρ M).value c = (eval ρ b)⁻¹ • (matrices o ρ M).value a

theorem quotients_matrices {gs : List (Expr ℚ)} {q c : Expr ℚ} {R : Expr ℚ → Expr ℚ → Expr ℚ → Prop}
    (h : Quotients (fun x y z => R x y z ∧ DividesMatrices o s ρ M x y z) gs q c) (hq : AsMatrix o s ρ q)
    (hg : ∀ g ∈ gs, AsNumber o s ρ g) (h0 : (gs.map (eval ρ)).prod ≠ 0) :
    AsMatrix o s ρ c ∧ (matrices o ρ M).value c = ((gs.map (eval ρ)).prod)⁻¹ • (matrices o ρ M).value q := by
  induction h with
  | nil => exact ⟨hq, by simp⟩
  | cons hd _ ih =>
    obtain ⟨hg, hgs⟩ := List.forall_mem_cons.mp hg
    rw [List.map_cons, List.prod_cons] at h0 ⊢
    obtain ⟨hq', he⟩ := hd.2 hq hg (left_ne_zero_of_mul h0)
    obtain ⟨hc, hv⟩ := ih hq' hgs (right_ne_zero_of_mul h0)
    exact ⟨hc, by rw [hv, he, smul_smul, mul_inv_rev]⟩

theorem dividesMatrices_of_case (hN : s.Fits N)
    (h : DivCase (fun x y z => x.div y = .ok z ∧ DividesMatrices o s ρ M x y z) a b c) : DividesMatrices o s ρ M a b c := by
  intro ha hb h0
  cases h with
  | @grid g _ cells _ hcells =>
    obtain ⟨hc, hv⟩ := ha.map (M := M) (f := ((eval ρ b)⁻¹ * ·)) hcells fun x y hx hy => by
      rw [mul_comm, ← div_eq_mul_inv]
      exact div_numbers hy.1 hx hb h0
    exact ⟨hc, by rw [hv, Grid.padded_map]; rfl⟩
  | numbers =>
    rw [isMatrix_const.mp ha.1, zero_div]
    exact ⟨asMatrix_zero, by simp⟩
  | zeroNumber hv => exact ⟨ha, by simp [Rational.nearZero_iff.mp hv]⟩
  | numberMonomial =>
    have hv := isMatrix_const.mp ha.1
    rw [ofMonomial_of_zero (by simp [hv]), hv]
    exact ⟨asMatrix_zero, by simp⟩
  | @monomialNumber m w =>
    refine ⟨⟨isMatrix_ofMonomial (ha.1.quantity _), ?_⟩, ?_⟩
    · exact .ofMonomial fun hq _ => (defined_kept ρ).quantity hq (Everywhere.var_iff.mp ha.2)
    · rw [Interpretation.value_ofMonomial, Interpretation.monomial_scaled, Interpretation.value_var, eval_const, one_div]
  | monomials h =>
    obtain ⟨hc, hm, hv⟩ := divMonomials_sorted (M := M) hN h ha.asSorted hb (by simpa using h0)
    exact ⟨⟨hm ha.1, hc.2⟩, by rw [hv, eval_var]⟩
  | @productNumber fs w =>
    obtain ⟨hfs, hm⟩ := isMatrix_product.mp ha.1
    refine ⟨⟨isMatrix_mulConstant hfs (Or.inr hm), .mulConstant (Everywhere.product_iff.mp ha.2)⟩, ?_⟩
    rw [Interpretation.value_mulConstant, Interpretation.value_product, eval_const, one_div]
  | productMonomial h =>
    rw [Interpretation.value_product, eval_var]
    exact divFactors_matrices hN h ha hb (by simpa using h0)
  | byProduct _ _ h =>
    rw [eval_product] at h0 ⊢
    rw [← Interpretation.value_collapse _ a]
    exact quotients_matrices h ha.collapse hb.factors h0
  | @sum ts us _ _ _ hus h =>
    obtain ⟨hc, hv⟩ := Interpretation.value_sumOf_forall₂ (matrices_adds (M := M) hN) hus h
      (fun t ht u hu => hu.2 (ha.terms t ht) hb h0) asMatrix_zero
    refine ⟨hc, ?_⟩
    rw [hv, Interpretation.value_sum, List.smul_sum, List.map_map]
    rfl

theorem div_matrices (hN : s.Fits N) (h : a.div b = .ok c) (ha : AsMatrix o s ρ a) (hb : AsNumber o s ρ b)
    (h0 : eval ρ b ≠ 0) : AsMatrix o s ρ c ∧ (matrices o ρ M).value c = (eval ρ b)⁻¹ • (matrices o ρ M).value a :=
  div_induction (R := DividesMatrices o s ρ M) (fun _ _ _ _ _ h => dividesMatrices_of_case hN h) h ha hb h0

end Expr

end SymbolicAlgebra
