/-
  SymbolicAlgebra.Proofs.Rendering.Columns — matrices for GLM are written column by column.

  The style finds the cells of a column by their places in the list of all cells, and passes over places
  where there is none. In a filled grid there is one at each place, so what is taken for a column is a
  row of the transposed grid (`glm_column`). A written matrix therefore has one line for each of these
  rows, and each cell stands in one line once (`render_glm_columns`).
-/

import SymbolicAlgebra.Proofs.Matrices.Transposition
import SymbolicAlgebra.Proofs.Rendering.Trees
import SymbolicAlgebra.Style.Glm

namespace SymbolicAlgebra

theorem Grid.row_transpose_map {β γ : Type} (f : β → γ) {g : Grid β} (hg : g.Filled) (j : Nat) :
    (g.map f).transpose.row j = (g.transpose.row j).map f := by
  refine List.ext_getElem? fun i => ?_
  rw [List.getElem?_map, getElem?_row, getElem?_row, get?_transpose (hg.map f), get?_transpose hg, get?_map]

namespace Style

/-! ## Lines -/

/-- A column of a matrix, on a line of its own. -/
def columnLine (column : List String) : String := "    " ++ joinWith ", " column ++ ",\n"

variable {g : Grid String}

/-- The cells that are found for a column are those of a row of the transposed grid. -/
theorem glm_column (hg : g.Filled) {j : Nat} (hj : j < g.cols) :
    (List.range (min g.rows g.cells.length)).filterMap (fun i => g.cells[i * g.cols + j]?) = g.transpose.row j := by
  have hrows : min g.rows g.cells.length = g.rows := by
    rw [hg]
    exact min_eq_left (Nat.le_mul_of_pos_right _ (Nat.zero_lt_of_lt hj))
  have hcells : ∀ i ∈ List.range g.rows, (g.cells[i * g.cols + j]?).isSome = true := by
    intro i hi
    have hi := List.mem_range.mp hi
    rw [← Grid.get?_of_lt hi hj]
    exact hg.isSome hi hj
  refine List.ext_getElem? fun i => ?_
  rw [hrows, Grid.getElem?_filterMap hcells, Grid.getElem?_row, Grid.get?_transpose hg]
  by_cases hi : i < g.rows
  · rw [List.getElem?_range hi, Option.bind_some, Grid.get?_of_lt hi hj]
  · rw [List.getElem?_eq_none (by rw [List.length_range]; omega), Option.bind_none,
      Grid.get?_eq_none fun h => hi h.1]

theorem glmMatrix_eq (hg : g.Filled) : glmMatrix g.shape g.cells =
    "\x7b\n" ++ String.join ((List.range g.cols).map fun j => columnLine (g.transpose.row j)) ++ "\x7d;" := by
  have hlines : (List.range g.cols).map (fun j => columnLine ((List.range (min g.rows g.cells.length)).filterMap
      fun i => g.cells[i * g.cols + j]?)) = (List.range g.cols).map fun j => columnLine (g.transpose.row j) :=
    List.map_congr_left fun j hj => congrArg columnLine (glm_column hg (List.mem_range.mp hj))
  rw [← hlines]
  simp only [glmMatrix, Grid.shape, List.getElem?_toArray, List.size_toArray]
  rfl

end Style

/-! ## Matrices -/

namespace Expr

open Style (columnLine)

variable {α : Type} [Scalar α]

/-- A matrix is written as a line that opens it, a line for each row of the transposed matrix, and a line
    that closes it. These rows hold every cell once, column by column. -/
theorem render_glm_columns {g : Grid (Expr α)} (hg : g.Filled) :
    (Expr.matrix g).render .glm = "\x7b\n" ++ String.join ((List.range g.transpose.rows).map fun j =>
      columnLine ((g.transpose.row j).map (render .glm))) ++ "\x7d;" ∧
    (List.range g.transpose.rows).flatMap g.transpose.row = g.transpose.cells ∧
    g.transpose.cells.Perm g.cells ∧
    ∀ i < g.rows, ∀ j < g.cols, ∃ c, g.cells[i * g.cols + j]? = some c ∧
      g.transpose.cells[j * g.rows + i]? = some c ∧ (g.transpose.row j)[i]? = some c := by
  refine ⟨?_, hg.transpose.flatMap_row, Grid.transpose_perm hg, fun i hi j hj => ?_⟩
  · have htext : (Expr.matrix g).render .glm = Style.glmMatrix (g.map (render .glm)).shape (g.map (render .glm)).cells :=
      render_matrix .glm g
    rw [htext, Style.glmMatrix_eq (hg.map _)]
    simp only [Grid.row_transpose_map _ hg]
    rfl
  · obtain ⟨c, hc⟩ := Option.isSome_iff_exists.mp (hg.isSome hi hj)
    have htransposed : g.transpose.get? j i = some c := (Grid.get?_transpose hg i j).trans hc
    refine ⟨c, ?_, ?_, ?_⟩
    · rwa [Grid.get?_of_lt hi hj] at hc
    · rwa [Grid.get?_of_lt (g := g.transpose) hj hi] at htransposed
    · rw [Grid.getElem?_row, htransposed]

/-- A matrix with more columns than rows. -/
theorem render_glm_columns_oblong :
    let g : Grid (Expr ℚ) := ⟨2, 3, [.ofName "eye_x", .const 2, .const 3, .const 4, .const (-5), .ofName "z"]⟩
    (Expr.matrix g).render .glm = "\x7b\n    eye.x, 4,\n    2, (-5),\n    3, z,\n\x7d;" := by
  intro g
  exact (render_glm_columns (g := g) rfl).1.trans (by cbv)

end Expr

end SymbolicAlgebra
