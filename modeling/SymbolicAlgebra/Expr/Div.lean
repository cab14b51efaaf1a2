/-
  SymbolicAlgebra.Expr.Div — division by a single number.

  A zero divisor is refused before anything else, except that a grid on either side is looked
  at first. Dividing by a product divides by its factors one after the other. Dividing a
  product by a monomial takes the monomial out of the first factor of the same name, or
  appends its reciprocal. A sum is no divisor, unless there is nothing to divide.

  Division recurses on the divisor's factors, and for one divisor on the parts of the dividend.
-/

import SymbolicAlgebra.Expr.Mul

namespace SymbolicAlgebra.Expr

variable {α : Type} [Scalar α]

/-- One over the monomial, which must not be zero. -/
def recipMonomial (m : Monomial α) : Except ArithError (Monomial α) :=
  if Scalar.nearZero m.quantity then throw .divisionByZero else return m.recip

/-- The quotient of two monomials. -/
def divMonomials (m n : Monomial α) : Except ArithError (Expr α) := do
  return mulMonomials m (← recipMonomial n)

/-- The first monomial of the given name among the factors, with its place. -/
def findMonomial? (name : String) : List (Expr α) → Option (Nat × Monomial α)
  | [] => none
  | .var m :: fs => if m.name == name then some (0, m) else (findMonomial? name fs).map fun (i, m) => (i + 1, m)
  | _ :: fs => (findMonomial? name fs).map fun (i, m) => (i + 1, m)

/-- A product divided by a monomial. When the monomial and a factor leave a number, the number
    is multiplied by the remaining factors from left to right. -/
def divFactors (fs : List (Expr α)) (n : Monomial α) : Except ArithError (Expr α) :=
  match findMonomial? n.name fs with
  | none => do checkedProduct (fs ++ [.var (← recipMonomial n)])
  | some (i, m) => do
    match ← divMonomials m n with
    | .const v => (fs.eraseIdx i).foldlM mul (.const v)
    | q => return .product (fs.set i q)

/-- The quotient of two values. -/
def div (a b : Expr α) : Except ArithError (Expr α) :=
  match a, b with
  | .matrix g, b => do
    let s ← b.shape
    if !s.isScalar || b.kind == .matrix then throw (.nonScalarDivisor s)
    else if b.isZero then throw .divisionByZero
    else return .matrix { g with cells := ← g.cells.mapM fun cell => div cell b }
  | _, .matrix h => throw (.nonScalarDivisor h.shape)
  | .const v, b =>
    if b.isZero then throw .divisionByZero
    else match b with
      | .const w => return .const (v / w)
      | b =>
        if Scalar.nearZero v then return .const v
        else match b with
          | .var n => do
            let r ← recipMonomial n
            return ofMonomial { r with quantity := r.quantity * v }
          | .product gs => gs.foldlM (fun q g => div q g) (.const v)
          | b => throw (.unsupported .div .constant b.kind)
  | .var m, b =>
    if b.isZero then throw .divisionByZero
    else match b with
      | .const w => return ofMonomial { m with quantity := m.quantity * (1 / w) }
      | .var n => divMonomials m n
      | .product gs => gs.foldlM (fun q g => div q g) (ofMonomial m)
      | b => throw (.unsupported .div .monomial b.kind)
  | .sum ts, b =>
    if b.isZero then throw .divisionByZero
    else match b with
      | .sum _ => throw (.unsupported .div .sum .sum)
      | b => do sumOf (← ts.mapM fun t => div t b)
  | .product fs, b =>
    if b.isZero then throw .divisionByZero
    else match b with
      | .const w => return mulConstant (1 / w) fs
      | .var n => divFactors fs n
      | .product gs => gs.foldlM (fun q g => div q g) (.product fs)
      | b => throw (.unsupported .div .product b.kind)
termination_by (b.size, a.size)
decreasing_by
  · have := size_le_sizeAll ‹cell ∈ g.cells›
    exact Prod.Lex.right _ (by simp only [size_matrix]; omega)
  · have := size_le_sizeAll ‹g ∈ gs›
    exact Prod.Lex.left _ _ (by simp only [size_product]; omega)
  · have := size_le_sizeAll ‹g ∈ gs›
    exact Prod.Lex.left _ _ (by simp only [size_product]; omega)
  · have := size_le_sizeAll ‹t ∈ ts›
    exact Prod.Lex.right _ (by simp only [size_sum]; omega)
  · have := size_le_sizeAll ‹g ∈ gs›
    exact Prod.Lex.left _ _ (by simp only [size_product]; omega)

end SymbolicAlgebra.Expr
