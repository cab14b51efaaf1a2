/-
  SymbolicAlgebra.Proofs.Matrices.Grids — grids of numbers as matrices.

  A grid of numbers is added and multiplied by the rules of matrices (`add?`, `mul?`), where a grid of
  one cell counts as a number.

  To compute with grids of any shape in one ring, `padded` puts a grid into the corner of a square
  matrix that is large enough; sums, multiples and products of grids are then those of matrices.
-/

import SymbolicAlgebra.Proofs.Grids
import SymbolicAlgebra.Proofs.Rational

namespace SymbolicAlgebra.Grid

/-! ## Grids of numbers -/

/-- A number as a grid of one cell. -/
def number (v : ℚ) : Grid ℚ := ⟨1, 1, [v]⟩

/-- The number in row `i` and column `j`, and zero outside of the grid. -/
def entry (g : Grid ℚ) (i j : Nat) : ℚ := (g.get? i j).getD 0

/-- The sum of two matrices of one shape. -/
def add? (g h : Grid ℚ) : Option (Grid ℚ) :=
  if g.shape = h.shape then some ⟨g.rows, g.cols, List.zipWith (· + ·) g.cells h.cells⟩ else none

/-- The matrix of the products of rows and columns. -/
def dot (g h : Grid ℚ) : Grid ℚ :=
  ⟨g.rows, h.cols, (Shape.places ⟨g.rows, h.cols⟩).map fun p =>
    ((List.range g.cols).map fun k => g.entry p.1 k * h.entry k p.2).sum⟩

/-- The product of two matrices of which one is a number, or whose columns and rows agree. -/
def mul? (g h : Grid ℚ) : Option (Grid ℚ) :=
  if g.shape = .scalar then some (h.map (g.entry 0 0 * ·))
  else if h.shape = .scalar then some (g.map (h.entry 0 0 * ·))
  else if g.cols = h.rows then some (g.dot h)
  else none

/-- The grid in the corner of a square matrix of zeros. -/
def padded (N : Nat) (g : Grid ℚ) : Matrix (Fin N) (Fin N) ℚ := Matrix.of fun i j => g.entry i j

variable {N : Nat} {g h : Grid ℚ}

theorem entry_of_not_lt {i j : Nat} (hb : ¬ (i < g.rows ∧ j < g.cols)) : g.entry i j = 0 := by
  rw [entry, get?_eq_none hb, Option.getD_none]

@[simp] theorem padded_apply (i j : Fin N) : padded N g i j = g.entry i j := rfl

theorem padded_map (v : ℚ) (g : Grid ℚ) : padded N (g.map (v * ·)) = v • padded N g := by
  ext i j
  show (g.map (v * ·)).entry i j = v * g.entry i j
  unfold entry
  rw [get?_map]
  cases g.get? i j <;> simp

theorem padded_zip (hs : g.shape = h.shape) (hg : g.Filled) (hh : h.Filled) :
    padded N ⟨g.rows, g.cols, List.zipWith (· + ·) g.cells h.cells⟩ = padded N g + padded N h := by
  ext i j
  show entry _ i j = g.entry i j + h.entry i j
  obtain ⟨hr, hc⟩ : g.rows = h.rows ∧ g.cols = h.cols := by simpa [shape] using hs
  by_cases hb : (i : Nat) < g.rows ∧ (j : Nat) < g.cols
  · obtain ⟨x, hx⟩ := Option.isSome_iff_exists.mp (hg.isSome hb.1 hb.2)
    obtain ⟨y, hy⟩ := Option.isSome_iff_exists.mp (hh.isSome (hr ▸ hb.1) (hc ▸ hb.2))
    rw [entry, entry, entry, hx, hy, get?_of_lt (by exact hb.1) (by exact hb.2)]
    rw [get?_of_lt hb.1 hb.2] at hx
    rw [get?_of_lt (hr ▸ hb.1) (hc ▸ hb.2), ← hc] at hy
    simp [List.getElem?_zipWith, hx, hy]
  · rw [entry_of_not_lt (g := g) hb, entry_of_not_lt (g := h) (by rwa [← hr, ← hc]), add_zero]
    exact entry_of_not_lt hb

theorem filled_zip (hs : g.shape = h.shape) (hg : g.Filled) (hh : h.Filled) :
    Filled ⟨g.rows, g.cols, List.zipWith (· + ·) g.cells h.cells⟩ := by
  obtain ⟨hr, hc⟩ : g.rows = h.rows ∧ g.cols = h.cols := by simpa [shape] using hs
  unfold Filled at hg hh ⊢
  rw [List.length_zipWith, hg, hh, hr, hc, min_self]

/-- Grids of one shape that are multiplied make a grid of that shape. -/
theorem shape_dot {s : Shape} (hg : g.shape = s) (hh : h.shape = s) : (g.dot h).shape = s := by
  show Shape.mk g.rows h.cols = s
  rw [rows_of_shape hg, cols_of_shape hh]

theorem filled_dot (g h : Grid ℚ) : (g.dot h).Filled := by
  unfold Filled dot
  rw [List.length_map, Shape.length_places]

theorem entry_dot {i j : Nat} (hi : i < g.rows) (hj : j < h.cols) :
    (g.dot h).entry i j = ((List.range g.cols).map fun k => g.entry i k * h.entry k j).sum := by
  have hplace := getElem?_places ⟨g.rows, h.cols⟩ (i := i) (j := j) hi hj
  rw [entry, get?_of_lt (g := g.dot h) hi hj]
  simp only [dot, List.getElem?_map]
  rw [hplace]
  rfl

/-- The product of grids is the product of matrices; the zeros around them add nothing. -/
theorem padded_dot (hN : g.cols ≤ N) : padded N (g.dot h) = padded N g * padded N h := by
  ext i j
  rw [Matrix.mul_apply, padded_apply]
  by_cases hb : (i : Nat) < g.rows ∧ (j : Nat) < h.cols
  · rw [entry_dot hb.1 hb.2]
    have hsum : ((List.range g.cols).map fun k => g.entry i k * h.entry k j).sum =
        ∑ k ∈ Finset.range g.cols, g.entry i k * h.entry k j := rfl
    rw [hsum, Finset.sum_subset (Finset.range_subset_range.mpr hN), Finset.sum_range]
    · rfl
    · intro k _ hk
      have : ¬ k < g.cols := by simpa using hk
      rw [entry_of_not_lt (fun hb => this hb.2), zero_mul]
  · rw [entry_of_not_lt (g := g.dot h) hb]
    refine (Finset.sum_eq_zero fun k _ => ?_).symm
    by_cases hi : (i : Nat) < g.rows
    · rw [padded_apply, padded_apply, entry_of_not_lt (g := h) (fun h' => hb ⟨hi, h'.2⟩), mul_zero]
    · rw [padded_apply, padded_apply, entry_of_not_lt (g := g) (fun h' => hi h'.1), zero_mul]

/-- Filled grids of one shape with the same padding are the same. -/
theorem eq_of_padded (hs : g.shape = h.shape) (hg : g.Filled) (hh : h.Filled) (hr : g.rows ≤ N) (hc : g.cols ≤ N)
    (e : padded N g = padded N h) : g = h := by
  refine ext_entries hs hg hh fun i hi j hj => ?_
  obtain ⟨hrows, hcols⟩ : g.rows = h.rows ∧ g.cols = h.cols := by simpa [shape] using hs
  obtain ⟨x, hx⟩ := Option.isSome_iff_exists.mp (hg.isSome hi hj)
  obtain ⟨y, hy⟩ := Option.isSome_iff_exists.mp (hh.isSome (hrows ▸ hi) (hcols ▸ hj))
  have he := congrFun (congrFun e ⟨i, by omega⟩) ⟨j, by omega⟩
  rw [padded_apply, padded_apply, entry, entry, hx, hy] at he
  rw [hx, hy]
  exact congrArg some he

end SymbolicAlgebra.Grid
