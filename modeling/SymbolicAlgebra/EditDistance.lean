/-
  SymbolicAlgebra.EditDistance — how many single changes lead from one text to another.

  A change inserts, deletes or replaces one character. The distances from a growing part of
  the first text to all parts of the second are computed row by row.
-/

namespace SymbolicAlgebra.EditDistance

/-- The distances in one row after the entry `left`. `above` are the entries of the row before,
    the first of them above and to the left. -/
def restOfRow (c : Char) (left : Nat) : List Char → List Nat → List Nat
  | d :: ds, corner :: up :: above =>
    let entry := min (min (left + 1) (up + 1)) (corner + if c = d then 0 else 1)
    entry :: restOfRow c entry ds (up :: above)
  | _, _ => []

/-- The row for one more character `c` of the first text. -/
def nextRow (ds : List Char) (row : List Nat) (c : Char) : List Nat :=
  match row with
  | [] => []
  | corner :: above => (corner + 1) :: restOfRow c (corner + 1) ds (corner :: above)

/-- The least number of changes. -/
def between (cs ds : List Char) : Nat :=
  ((cs.foldl (nextRow ds) (List.range (ds.length + 1))).getLast?).getD 0

end SymbolicAlgebra.EditDistance
