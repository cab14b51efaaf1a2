/-
  SymbolicAlgebra.Proofs.Matrices.Entries — the product of two matrices, entry by entry.

  Two grids without grids in their cells are multiplied exactly if the columns of the left one are as
  many as the rows of the right one, and each entry of the product stands for the sum of the products
  of the entries of its row and its column (`mul_rows_by_columns`).

  The pairs of a row and a column that are left out, because one of the two is zero as far as its
  terms show it, add nothing (`row_column_denotes`).
-/

import SymbolicAlgebra.Proofs.Matrices.Multiplication
import SymbolicAlgebra.Proofs.Totality

namespace SymbolicAlgebra.Expr

section
variable {α : Type} [Scalar α] {g h : Grid (Expr α)}

/-- A product of grids has a row of the left one times a column of the right one in each place. -/
theorem mul_grids_eq_ok {c : Expr α} (hc : mul (.matrix g) (.matrix h) = .ok c) :
    g.cols = h.rows ∧ ∃ cells, c = .matrix ⟨g.rows, h.cols, cells⟩ ∧
      List.Forall₂ (fun p c => Dot (fun x y z => mul x y = .ok z) ((g.row p.1).zip (h.transpose.row p.2)) (.const 0) c)
        (Shape.places ⟨g.rows, h.cols⟩) cells := by
  have hcase := mul_cases (R := fun x y z => mul x y = .ok z) (fun _ _ _ _ hz => hz) hc
  cases hcase with
  | grids hd hcells => exact ⟨hd, _, rfl, hcells⟩
  | gridScalar hk => exact absurd rfl hk
  | scalarGrid hk => exact absurd rfl hk
  | besideGrid hk => exact absurd rfl hk
  | gridBeside hk => exact absurd rfl hk

end

section
variable {g h : Grid (Expr ℚ)}

/-- Matrix multiplication is the product of rows and columns. It is refused exactly if the columns of
    the left matrix are not as many as the rows of the right one. -/
theorem mul_rows_by_columns (hg : g.Filled) (hh : h.Filled) (cg : ∀ c ∈ g.cells, Gridless c)
    (ch : ∀ c ∈ h.cells, Gridless c) :
    ((∃ op s t, mul (.matrix g) (.matrix h) = .error (.dimensionMismatch op s t)) ↔ g.cols ≠ h.rows) ∧
      (g.cols = h.rows → ∃ p : Grid (Expr ℚ), mul (.matrix g) (.matrix h) = .ok (.matrix p) ∧
        p.shape = ⟨g.rows, h.cols⟩ ∧ p.Filled ∧
        ∀ i < g.rows, ∀ j < h.cols, ∃ c, p.get? i j = some c ∧ Gridless c ∧
          ∀ ρ, (∀ x ∈ g.cells, DefinedAt ρ x) → (∀ y ∈ h.cells, DefinedAt ρ y) →
            Denotes ρ c (∑ k ∈ Finset.range g.cols, (g.map (eval ρ)).entry i k * (h.map (eval ρ)).entry k j)) := by
  have success (hd : g.cols = h.rows) := (mul_grids_gridless cg ch hd).eq_ok
  refine ⟨⟨?_, fun hd => ⟨_, _, _, mul_grids_mismatch hd⟩⟩, fun hd => ?_⟩
  · rintro ⟨op, s, t, herror⟩ hd
    obtain ⟨c, hc, -⟩ := success hd
    rw [hc] at herror
    cases herror
  · obtain ⟨_, hc, cells, rfl, hgridless⟩ := success hd
    obtain ⟨-, cells, hp, hcells⟩ := mul_grids_eq_ok hc
    cases hp
    have hlength : cells.length = g.rows * h.cols := by rw [← hcells.length_eq, Shape.length_places]
    refine ⟨_, hc, rfl, hlength, fun i hi j hj => ?_⟩
    obtain ⟨c, hget, hdot⟩ := exists_getElem?_right hcells (Grid.getElem?_places ⟨g.rows, h.cols⟩ hi hj)
    have hplace : Grid.get? ⟨g.rows, h.cols, cells⟩ i j = some c := by
      rw [← hget]
      exact if_pos ⟨hi, hj⟩
    refine ⟨c, hplace, hgridless c (List.mem_of_getElem? hget), fun ρ dg dh => ?_⟩
    refine row_column_denotes hg hh hd hi hj hdot fun q hq => ?_
    obtain ⟨hx, hy⟩ := List.of_mem_zip hq
    exact ⟨dg _ (Grid.mem_cells_of_mem_row hx), dh _ (Grid.mem_cells_of_mem_transpose (Grid.mem_cells_of_mem_row hy))⟩

/-- A row with a cell that only cancellation shows to be zero, times a column, at `x = 3`. -/
theorem mul_rows_by_columns_cancelled :
    let g : Grid (Expr ℚ) := ⟨1, 2, [.sum [.var ⟨"x", 1, 1⟩, .var ⟨"x", -1, 1⟩], .const 2]⟩
    let h : Grid (Expr ℚ) := ⟨2, 1, [.const 5, .var ⟨"x", 1, 1⟩]⟩
    ∃ p, mul (.matrix g) (.matrix h) = .ok (.matrix p) ∧ ∃ c, p.get? 0 0 = some c ∧ Denotes (fun _ => 3) c 6 := by
  intro g h
  have cg : ∀ c ∈ g.cells, Gridless c := by simp [g, Gridless]
  have ch : ∀ c ∈ h.cells, Gridless c := by simp [h, Gridless]
  obtain ⟨p, hp, -, -, hentries⟩ := (mul_rows_by_columns (g := g) (h := h) rfl rfl cg ch).2 rfl
  obtain ⟨c, hget, -, hdenotes⟩ := hentries 0 Nat.one_pos 0 Nat.one_pos
  have hx (q : ℚ) : Monomial.DefinedAt (fun _ => 3) ⟨"x", q, 1⟩ := ⟨1, by simp, fun _ => three_ne_zero⟩
  have dg : ∀ x ∈ g.cells, DefinedAt (fun _ => 3) x := by simp [g, DefinedAt, assigned, hx]
  have dh : ∀ y ∈ h.cells, DefinedAt (fun _ => 3) y := by simp [h, DefinedAt, assigned, hx]
  have hvalue : ∑ k ∈ Finset.range g.cols, (g.map (eval fun _ => 3)).entry 0 k * (h.map (eval fun _ => 3)).entry k 0 = 6 := by
    simp [g, h, Finset.sum_range_succ, Grid.entry, Grid.get?, Grid.map, Monomial.eval]
    norm_num
  exact ⟨p, hp, c, hget, hvalue ▸ hdenotes _ dg dh⟩

end

end SymbolicAlgebra.Expr
