/-
  SymbolicAlgebra.Proofs.Matrices.Readings — trees read as matrices.

  `matrices` reads a tree in the ring of square matrices: the name that stands for a matrix is read as
  one, any other name as a multiple of the identity, and a grid as the matrix that it fills from the
  corner. What is put together as a number is read as a multiple of the identity (`IsNumber.value`), so
  it commutes with everything. The powers of one matrix commute with one another, and grids are
  compared in order, so like factors have one product whatever their order (`commute_of_isScalar`).

  `AsNumber` and `AsMatrix` add to the sort of a tree that it is defined where names have these values.
-/

import SymbolicAlgebra.Proofs.Arithmetic
import SymbolicAlgebra.Proofs.Matrices.Sorts

namespace SymbolicAlgebra

/-! ## Definedness -/

namespace Expr

/-- The monomials are defined where names have these values. -/
def defined (ρ : String → ℚ) : Condition ℚ := ⟨Monomial.DefinedAt ρ, fun _ _ _ => True⟩

def Defined (ρ : String → ℚ) (e : Expr ℚ) : Prop := Everywhere (defined ρ) e

theorem defined_kept (ρ : String → ℚ) : (defined ρ).Kept where
  neg := (assigned_kept ρ).neg
  bare := (assigned_kept ρ).bare
  quantity := (assigned_kept ρ).quantity
  power := (assigned_kept ρ).power
  zip _ _ := trivial
  mul _ _ := trivial

theorem DefinedAt.defined {ρ : String → ℚ} {e : Expr ℚ} (h : DefinedAt ρ e) : Defined ρ e :=
  Everywhere.mono (P := assigned ρ) (Q := Expr.defined ρ) (fun _ hm => hm) (fun _ _ _ _ => trivial) h

theorem IsNumber.definedAt {o : Option String} {s : Shape} {ρ : String → ℚ} {e : Expr ℚ} (h : IsNumber o s e)
    (hd : Defined ρ e) : DefinedAt ρ e :=
  Everywhere.combine (P := plain o s) (Q := defined ρ) (R := assigned ρ) (fun _ _ hm => hm) (fun _ _ _ hg _ => hg.2.2) h hd

/-- A number that is defined. -/
def AsNumber (o : Option String) (s : Shape) (ρ : String → ℚ) (e : Expr ℚ) : Prop := IsNumber o s e ∧ DefinedAt ρ e

/-- A matrix that is defined. -/
def AsMatrix (o : Option String) (s : Shape) (ρ : String → ℚ) (e : Expr ℚ) : Prop := IsMatrix o s e ∧ Defined ρ e

end Expr

/-- Matrices of the shape fit into the square ones, which are numbers if the shape is that of one. -/
structure Shape.Fits (s : Shape) (N : Nat) : Prop where
  rows : s.rows ≤ N
  cols : s.cols ≤ N
  one : s = .scalar → N = 1

theorem Shape.Fits.cols_le {s : Shape} {N : Nat} (hN : s.Fits N) {β : Type} {g : Grid β} (h : g.shape = s) : g.cols ≤ N := by
  rw [Grid.cols_of_shape h]
  exact hN.cols

/-! ## The reading -/

section
variable {N : Nat}

/-- The name `o` stands for the matrix `M`, the others for numbers. -/
def matrices (o : Option String) (ρ : String → ℚ) (M : Matrix (Fin N) (Fin N) ℚ) :
    Interpretation (Matrix (Fin N) (Fin N) ℚ) where
  power n k := if o = some n then M ^ k.toNat else (ρ n ^ k) • 1
  grid g := Grid.padded N (g.map (Expr.eval ρ))
  power_zero n := by
    split
    · rw [Int.toNat_zero, pow_zero]
    · rw [zpow_zero, one_smul]

end

namespace Expr

variable {o : Option String} {s : Shape} {ρ : String → ℚ} {N : Nat} {M : Matrix (Fin N) (Fin N) ℚ}

theorem smul_one_eq_algebraMap (v : ℚ) : v • (1 : Matrix (Fin N) (Fin N) ℚ) = algebraMap ℚ _ v :=
  (Algebra.algebraMap_eq_smul_one v).symm

theorem padded_cell (h : N = 1) (v : ℚ) : Grid.padded N ⟨1, 1, [v]⟩ = v • 1 := by
  subst h
  ext i j
  rw [Subsingleton.elim i 0, Subsingleton.elim j 0]
  simp [Grid.entry, Grid.get?]

/-- A number is read as a multiple of the identity. -/
theorem IsNumber.value (hN : s.Fits N) {e : Expr ℚ} (h : IsNumber o s e) :
    (matrices o ρ M).value e = eval ρ e • 1 := by
  induction h with
  | const v => rw [Interpretation.value_const, eval_const]
  | @var m hm =>
    rw [Interpretation.value_var, eval_var, Interpretation.monomial, Monomial.eval, mul_smul]
    exact congrArg _ (if_neg hm)
  | @sum ts _ ih =>
    rw [Interpretation.value_sum, eval_sum, smul_one_eq_algebraMap, map_list_sum, List.map_map]
    refine congrArg List.sum (List.map_congr_left fun t ht => ?_)
    rw [ih t ht, smul_one_eq_algebraMap, Function.comp]
  | @product fs _ ih =>
    rw [Interpretation.value_product, eval_product, smul_one_eq_algebraMap, map_list_prod, List.map_map]
    refine congrArg List.prod (List.map_congr_left fun f hf => ?_)
    rw [ih f hf, smul_one_eq_algebraMap, Function.comp]
  | @matrix g hg _ _ =>
    obtain ⟨r, c, cells⟩ := g
    obtain ⟨-, hs, hr, hc, hk⟩ := hg
    obtain ⟨x, hx⟩ := List.length_eq_one_iff.mp hk
    simp only at hr hc hx
    subst hr hc hx
    rw [Interpretation.value_matrix, eval_cell]
    exact padded_cell (hN.one hs) (eval ρ x)

/-! ## Factors that commute -/

theorem commute_smul_one (X : Matrix (Fin N) (Fin N) ℚ) (v : ℚ) : Commute X (v • 1) := (Commute.one_right X).smul_right v

/-- What commutes with the matrix commutes with everything that is made of its powers. -/
theorem IsSorted.commute (hN : s.Fits N) {n : String} {X : Matrix (Fin N) (Fin N) ℚ} (hX : Commute X M) {e : Expr ℚ}
    (h : IsSorted (some n) s e) : Commute X ((matrices (some n) ρ M).value e) := by
  induction e with
  | const v =>
    rw [Interpretation.value_const]
    exact commute_smul_one X v
  | var m =>
    rw [Interpretation.value_var]
    refine Commute.smul_right ?_ m.quantity
    show Commute X (if some n = some m.name then _ else _)
    split
    · exact hX.pow_right _
    · exact commute_smul_one X _
  | sum ts ih =>
    rw [Interpretation.value_sum]
    refine Commute.list_sum_right X _ fun Y hY => ?_
    obtain ⟨t, ht, rfl⟩ := List.mem_map.mp hY
    exact ih t ht (h.terms t ht).1
  | product fs ih =>
    rw [Interpretation.value_product]
    refine Commute.list_prod_right _ X fun Y hY => ?_
    obtain ⟨f, hf, rfl⟩ := List.mem_map.mp hY
    exact ih f hf (h.factors f hf)
  | matrix g =>
    rcases h with h | h
    · rw [h.value hN]
      exact commute_smul_one X _
    · cases (isMatrix_matrix.mp h).1

/-- A tree that has the shape of a single number is one, if there is no name for matrices. -/
theorem IsSorted.isNumber {e : Expr ℚ} (h : IsSorted none s e) (ht : e.shape = .ok .scalar) : IsNumber none s e := by
  rcases h with h | h
  · exact h
  · exact h.isNumber ht

/-- Factors that may change places commute. -/
theorem commute_of_isScalar (hN : s.Fits N) {f g : Expr ℚ} (hf : IsSorted o s f) (hg : IsSorted o s g)
    (h : f.isScalar = true) : Commute ((matrices o ρ M).value f) ((matrices o ρ M).value g) := by
  cases o with
  | none =>
    rw [(hf.isNumber (isScalar_iff.mp h)).value hN]
    exact (commute_smul_one _ _).symm
  | some n =>
    have hM : Commute ((matrices (some n) ρ M).value f) M := (hf.commute hN (Commute.refl M)).symm
    exact hg.commute hN hM

/-! ## Grids worked on cell by cell -/

theorem map_cells {g : Grid (Expr ℚ)} {cells : List (Expr ℚ)} {R : Expr ℚ → Expr ℚ → Prop} {f : ℚ → ℚ}
    (h : List.Forall₂ R g.cells cells) (hR : ∀ x ∈ g.cells, ∀ y, R x y → eval ρ y = f (eval ρ x)) :
    (⟨g.rows, g.cols, cells⟩ : Grid (Expr ℚ)).map (eval ρ) = (g.map (eval ρ)).map f := by
  unfold Grid.map
  congr 1
  rw [List.map_map]
  exact map_eq_map_of_mem h hR

/-- A number that goes into all cells is added to the matrix: it is zero, unless there is one cell. -/
theorem padded_broadcast (hN : s.Fits N) {g : Grid ℚ} (hs : g.shape = s) (hg : g.Filled) {w : ℚ} (hw : s ≠ .scalar → w = 0) :
    Grid.padded N (g.map (· + w)) = Grid.padded N g + w • 1 := by
  by_cases h1 : s = .scalar
  · obtain ⟨r, c, cells⟩ := g
    obtain ⟨rfl, rfl⟩ : r = 1 ∧ c = 1 := by simpa [Grid.shape, Shape.scalar] using hs.trans h1
    obtain ⟨x, rfl⟩ := List.length_eq_one_iff.mp hg
    have hN := hN.one h1
    show Grid.padded N ⟨1, 1, [x + w]⟩ = _
    rw [padded_cell hN, padded_cell hN, add_smul]
  · have hmap : (fun v : ℚ => v + w) = id := by
      funext v
      rw [hw h1, add_zero]
      rfl
    rw [hw h1, zero_smul, add_zero]
    simp [Grid.map]

end Expr

end SymbolicAlgebra
