/-
  SymbolicAlgebra.Expr.Normalize — the pass that tidies a tree after substitution.

  Substitution leaves products within products and factors that could be multiplied.
  `normalize` flattens every product that is not inside a sum, takes one coefficient out of
  it and multiplies the remaining factors again from left to right. A variable that does
  not depend on its name becomes a constant, a grid is tidied cell by cell, and a sum is left
  as it is.

  `normalizeNotes` is the record that the pass leaves: for every product, after its factors,
  the coefficient and how many factors remain beside it.
-/

import SymbolicAlgebra.Expr.Div

namespace SymbolicAlgebra.Expr

variable {α : Type} [Scalar α]

/-- The product of tidied factors, with one coefficient. -/
def recombine (fs : List (Expr α)) : Except ArithError (Expr α) :=
  let (coefficient, rest) := splitCoefficient fs
  if Scalar.nearZero coefficient then return .const 0
  else match rest with
    | [] => return .const coefficient
    | first :: more => do mul (.const coefficient) (← more.foldlM mul first)

mutual

/-- The tidied expression. -/
def normalize : Expr α → Except ArithError (Expr α)
  | .const v => return .const v
  | .var m => return ofMonomial m
  | .sum ts => return .sum ts
  | .product fs => do recombine (← normalizeFactors fs)
  | .matrix ⟨r, c, cells⟩ => return .matrix ⟨r, c, ← normalizeCells cells⟩

/-- The tidied factors of a product, those of products among them in their place. -/
def normalizeFactors : List (Expr α) → Except ArithError (List (Expr α))
  | [] => return []
  | f :: fs => return (← normalize f).factors ++ (← normalizeFactors fs)

/-- The tidied cells of a grid. -/
def normalizeCells : List (Expr α) → Except ArithError (List (Expr α))
  | [] => return []
  | c :: cs => return (← normalize c) :: (← normalizeCells cs)

end

mutual

/-- For every product that the pass tidies, in the order in which it is done with their factors,
    the coefficient and the number of the other factors. -/
def normalizeNotes : Expr α → List (α × Nat)
  | .product fs =>
    normalizeNotesAll fs ++
      match normalizeFactors fs with
      | .ok gs => [((splitCoefficient gs).1, (splitCoefficient gs).2.length)]
      | .error _ => []
  | .matrix ⟨_, _, cells⟩ => normalizeNotesAll cells
  | _ => []

/-- The notes of the expressions one after the other, up to the first that cannot be tidied. -/
def normalizeNotesAll : List (Expr α) → List (α × Nat)
  | [] => []
  | e :: es =>
    normalizeNotes e ++
      match normalize e with
      | .ok _ => normalizeNotesAll es
      | .error _ => []

end

end SymbolicAlgebra.Expr
