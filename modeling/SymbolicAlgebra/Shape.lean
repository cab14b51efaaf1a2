/-
  SymbolicAlgebra.Shape — the number of rows and columns of a value.

  `places` is the order in which the cells of a grid are kept. A shape without rows or without
  columns has no places, however large its other number is.
-/

namespace SymbolicAlgebra

/-- Rows and columns. Every value that is not a matrix is `1x1`. -/
structure Shape where
  rows : Nat
  cols : Nat
  deriving Repr, DecidableEq

namespace Shape

/-- The shape of a single number. -/
def scalar : Shape := ⟨1, 1⟩

def isScalar (s : Shape) : Bool := s == scalar

/-- The row and the column of every place, row after row. -/
def places (s : Shape) : List (Nat × Nat) :=
  (List.range (s.rows * s.cols)).map fun k => (k / s.cols, k % s.cols)

theorem length_places (s : Shape) : s.places.length = s.rows * s.cols := by simp [places]

/-- Rows and columns with an `x` between them. -/
def text (s : Shape) : String := toString s.rows ++ "x" ++ toString s.cols

end Shape

end SymbolicAlgebra
