/-
  SymbolicAlgebra.Grid — dense grids of cells in row-major order.

  A grid holds its dimensions beside the list of its cells, so a grid without rows still has
  a number of columns. `Grid.Filled` says that there are as many cells as the dimensions
  promise; every constructor here yields a filled grid, and every operation keeps one.

  Reading a cell (`get?`) is the view of a grid: the cell of row `i` and column `j` is the
  one at `i * cols + j`.
-/

import SymbolicAlgebra.Shape

namespace SymbolicAlgebra

/-- A grid of `rows` times `cols` cells, row after row. -/
structure Grid (β : Type) where
  rows : Nat
  cols : Nat
  cells : List β
  deriving Repr

namespace Grid

variable {β γ : Type}

def shape (g : Grid β) : Shape := ⟨g.rows, g.cols⟩

/-- There is a cell for every place. -/
def Filled (g : Grid β) : Prop := g.cells.length = g.rows * g.cols

/-! ## Cells -/

/-- The cell of row `i` and column `j`. -/
def get? (g : Grid β) (i j : Nat) : Option β :=
  if i < g.rows ∧ j < g.cols then g.cells[i * g.cols + j]? else none

/-- The grid with the cell of row `i` and column `j` replaced. -/
def set? (g : Grid β) (i j : Nat) (c : β) : Option (Grid β) :=
  if i < g.rows ∧ j < g.cols ∧ i * g.cols + j < g.cells.length then
    some { g with cells := g.cells.set (i * g.cols + j) c }
  else none

/-- The cells of row `i`, from left to right. -/
def row (g : Grid β) (i : Nat) : List β := if i < g.rows then (g.cells.drop (i * g.cols)).take g.cols else []

/-- Rows become columns: the cell of row `j` and column `i` is that of row `i` and column `j`. -/
def transpose (g : Grid β) : Grid β :=
  let cells := g.cells.toArray
  ⟨g.cols, g.rows, (Shape.places ⟨g.cols, g.rows⟩).filterMap fun (j, i) => cells[i * g.cols + j]?⟩

theorem mem_cells_of_mem_row {g : Grid β} {i : Nat} {c : β} (h : c ∈ g.row i) : c ∈ g.cells := by
  unfold row at h
  split at h
  · exact List.mem_of_mem_drop (List.mem_of_mem_take h)
  · cases h

theorem mem_cells_of_mem_transpose {g : Grid β} {c : β} (h : c ∈ g.transpose.cells) : c ∈ g.cells := by
  obtain ⟨⟨j, i⟩, _, h⟩ := List.mem_filterMap.mp h
  simp only [List.getElem?_toArray] at h
  exact List.mem_of_getElem? h

/-! ## Building grids -/

/-- Every cell is `c`. -/
def replicate (rows cols : Nat) (c : β) : Grid β := ⟨rows, cols, List.replicate (rows * cols) c⟩

/-- The square grid with `one` down the diagonal and `zero` elsewhere. -/
def identity (n : Nat) (zero one : β) : Grid β :=
  ⟨n, n, (Shape.places ⟨n, n⟩).map fun (i, j) => if i = j then one else zero⟩

/-- The square grid of the cells, if their number is a square other than zero. -/
def square? (cells : List β) : Option (Grid β) :=
  ((List.range (cells.length + 1)).find? fun n => n != 0 && n * n == cells.length).map fun n => ⟨n, n, cells⟩

/-- The grid of the rows, if there is a row and all rows have one length other than zero. -/
def ofRows? : List (List β) → Option (Grid β)
  | [] => none
  | first :: rest =>
    if first.isEmpty || rest.any (·.length != first.length) then none
    else some ⟨rest.length + 1, first.length, (first :: rest).flatten⟩

/-! ## Working on all cells -/

def map (f : β → γ) (g : Grid β) : Grid γ := { g with cells := g.cells.map f }

/-- Replaces each cell in turn; the first failure is the failure of the whole. -/
def mapM {m : Type → Type} [Monad m] (f : β → m γ) (g : Grid β) : m (Grid γ) := do
  return { g with cells := ← g.cells.mapM f }

/-- Combines the cells at the same place of two grids of one shape. -/
def zipM {m : Type → Type} [Monad m] {δ : Type} (f : β → γ → m δ) (g : Grid β) (h : Grid γ) : m (Grid δ) := do
  return ⟨g.rows, g.cols, ← (g.cells.zip h.cells).mapM fun (a, b) => f a b⟩

end Grid

/-- Cuts a list into pieces of `width` elements, the last one possibly shorter. A piece has at
    least one element, also when `width` is `0`. -/
def chunks {β : Type} (width : Nat) : List β → List (List β)
  | [] => []
  | c :: cs => (c :: cs.take (width - 1)) :: chunks width (cs.drop (width - 1))
termination_by cs => cs.length
decreasing_by simp only [List.length_drop, List.length_cons]; omega

end SymbolicAlgebra
