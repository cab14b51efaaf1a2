/-
  SymbolicAlgebra.Proofs.Totality — arithmetic on trees without grids is never refused.

  Without grids there is only one shape, that of single numbers, which are always added and multiplied
  (`add_single`, `mul_single`); and arithmetic brings no grid in.

  A grid of such trees is multiplied by another if its columns are as many as the rows of that
  (`mul_grids_gridless`). A division can be refused, but not one by a monomial that is not zero
  (`div_monomial_gridless`).
-/

import SymbolicAlgebra.Proofs.Shapes.Programs
import SymbolicAlgebra.Proofs.Refusals.Multiplication

namespace SymbolicAlgebra.Expr

variable {α : Type}

theorem Gridless.neat {e : Expr α} (h : Gridless e) : Neat .scalar e := by
  induction h with
  | const v => exact .const v
  | var m => exact .var _
  | sum h ih => exact .sum (Gridless.shaped (.sum h)).2 ih
  | product h ih => exact .of_factors (Gridless.shaped (.product h)).2 fun f hf => ⟨_, ih f hf⟩
  | matrix hg => exact hg.elim

theorem Gridless.kind {e : Expr α} (h : Gridless e) : e.kind ≠ .matrix := by
  cases h with
  | matrix h => exact h.elim
  | _ => simp [Expr.kind]

theorem checkedProduct_gridless {fs : List (Expr α)} (h : ∀ f ∈ fs, Gridless f) :
    Succeeds Gridless (checkedProduct fs) := by
  have hproduct : Gridless (.product fs) := .product h
  rw [checkedProduct_eq hproduct.neat]
  exact hproduct

variable [Scalar α] {a b : Expr α}

/-! ## Arithmetic -/

theorem add_gridless (ha : Gridless a) (hb : Gridless b) : Succeeds Gridless (a.add b) :=
  (add_single ha.neat hb.neat).attach.imp fun _ hc => Everywhere.add gridless_kept hc.1 ha hb

theorem sub_gridless (ha : Gridless a) (hb : Gridless b) : Succeeds Gridless (a.sub b) :=
  add_gridless ha (Everywhere.neg gridless_kept hb)

theorem sumOf_gridless {ts : List (Expr α)} (hts : ∀ t ∈ ts, Gridless t) : Succeeds Gridless (sumOf ts) := by
  cases ts with
  | nil => exact .const 0
  | cons t ts =>
    obtain ⟨ht, hts⟩ := List.forall_mem_cons.mp hts
    exact Ends.foldlM ht fun s hs x hx => add_gridless hs (hts x hx)

theorem mul_gridless (ha : Gridless a) (hb : Gridless b) : Succeeds Gridless (a.mul b) :=
  (mul_single ha.neat hb.neat).attach.imp fun _ hc => Everywhere.mul gridless_kept hc.1 ha hb

/-- Grids without grids in their cells are multiplied. -/
theorem mul_grids_gridless {g h : Grid (Expr α)} (hg : ∀ c ∈ g.cells, Gridless c) (hh : ∀ c ∈ h.cells, Gridless c)
    (hd : g.cols = h.rows) :
    Succeeds (fun c => ∃ cells, c = .matrix ⟨g.rows, h.cols, cells⟩ ∧ ∀ x ∈ cells, Gridless x)
      (mul (.matrix g) (.matrix h)) :=
  mul_grids_succeeds (.const 0) (fun x hx y hy => mul_gridless (hg x hx) (hh y hy)) (fun _ _ => add_gridless) hd

/-! ## Division by a monomial -/

section
variable {n : Monomial α} (hn : Scalar.nearZero n.quantity = false)
include hn

theorem divMonomials_gridless (m : Monomial α) : Succeeds Gridless (divMonomials m n) := by
  unfold divMonomials
  rw [recipMonomial_eq_ok.mpr ⟨hn, rfl⟩]
  exact Everywhere.mulMonomials gridless_kept trivial trivial

theorem divFactors_gridless {fs : List (Expr α)} (hfs : ∀ f ∈ fs, Gridless f) : Succeeds Gridless (divFactors fs n) := by
  unfold divFactors
  split
  · rw [recipMonomial_eq_ok.mpr ⟨hn, rfl⟩]
    exact checkedProduct_gridless (List.forall_mem_append.mpr ⟨hfs, by simpa using .var trivial⟩)
  · refine (divMonomials_gridless hn _).bind fun q hq => ?_
    split
    · exact Ends.foldlM hq fun s hs f hf => mul_gridless hs (hfs f (List.mem_of_mem_eraseIdx hf))
    · refine .product fun f hf => ?_
      rcases List.mem_or_eq_of_mem_set hf with hf | rfl
      · exact hfs f hf
      · exact hq

theorem div_monomial_gridless (ha : Gridless a) : Succeeds Gridless (a.div (.var n)) := by
  have hzero : (Expr.var n).isZero = false := hn
  induction a with
  | const v =>
    unfold div
    rw [hzero]
    simp only [Bool.false_eq_true, if_false]
    split
    · exact .const v
    · rw [recipMonomial_eq_ok.mpr ⟨hn, rfl⟩]
      exact Everywhere.ofMonomial fun _ _ => trivial
  | var m =>
    unfold div
    rw [hzero]
    exact divMonomials_gridless hn m
  | sum ts ih =>
    have hts := Everywhere.sum_iff.mp ha
    unfold div
    rw [hzero]
    exact (Ends.mapM fun t ht => ih t ht (hts t ht)).bind fun us hus => sumOf_gridless hus
  | product fs _ =>
    unfold div
    rw [hzero]
    exact divFactors_gridless hn (Everywhere.product_iff.mp ha)
  | matrix g => exact (Everywhere.matrix_iff.mp ha).1.elim

end

end SymbolicAlgebra.Expr
