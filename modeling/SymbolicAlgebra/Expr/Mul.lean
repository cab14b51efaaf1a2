/-
  SymbolicAlgebra.Expr.Mul — multiplication.

  Products of sums are multiplied out, and the terms that come out are folded into one
  another as they appear. Two monomials of one name add their exponents; of two names, they
  make a product with their quantities as its coefficient. A product takes further factors at
  the side they come from, without looking at those it has.

  Two grids are multiplied rows by columns. A single number goes into every cell of a grid;
  any other value stays beside the grid as a factor, if the shapes chain.

  Multiplication recurses on the parts of either side.
-/

import SymbolicAlgebra.Expr.Add

namespace SymbolicAlgebra.Expr

variable {α : Type} [Scalar α]

/-- The product of two monomials. -/
def mulMonomials (m n : Monomial α) : Expr α :=
  if n.name == m.name then ofMonomial ⟨m.name, m.quantity * n.quantity, m.exponent + n.exponent⟩
  else
    let c := m.quantity * n.quantity
    let fs := [ofMonomial m.bare, ofMonomial n.bare]
    if Scalar.nearZero c then .const 0
    else if Scalar.nearOne c then .product fs
    else .product (.const c :: fs)

/-- A product with one more factor in front. -/
def prependFactor (a : Expr α) (fs : List (Expr α)) : Except ArithError (Expr α) :=
  match a with
  | .const v => return mulConstant v fs
  | a => checkedProduct (a :: fs)

/-- Folds a term into the first of the terms so far that it cancels or makes one node with, and
    puts it at the end otherwise. -/
def foldCross (t : Expr α) : List (Expr α) → Except ArithError (List (Expr α))
  | [] => return if t.isZero then [] else [t]
  | x :: xs => do
    let c ← x.add t
    if c.isZero then return xs
    else match c with
      | .sum _ => return x :: (← foldCross t xs)
      | c => return c :: xs

theorem size_ofMonomial (m : Monomial α) : (ofMonomial m).size = 1 := by
  unfold ofMonomial
  split
  · rfl
  · split <;> rfl

/-- The product of two values, the order of the operands kept. -/
def mul (a b : Expr α) : Except ArithError (Expr α) :=
  match a, b with
  | .matrix g, .matrix h =>
    if g.cols = h.rows then do
      let columns := h.transpose
      let cells ← (Shape.places ⟨g.rows, h.cols⟩).mapM fun (i, j) =>
        ((g.row i).attach.zip (columns.row j).attach).foldlM (fun cell p =>
          if p.1.1.isZero || p.2.1.isZero then return cell
          else do cell.add (← mul p.1.1 p.2.1)) (.const 0)
      return .matrix ⟨g.rows, h.cols, cells⟩
    else throw (.dimensionMismatch .mul g.shape h.shape)
  | .matrix g, b => do
    if (← b.shape).isScalar then return .matrix { g with cells := ← g.cells.mapM fun cell => mul cell b }
    else chain (.matrix g) b
  | a, .matrix h => do
    if (← a.shape).isScalar then return .matrix { h with cells := ← h.cells.mapM fun cell => mul a cell }
    else chain a (.matrix h)
  | .const v, b => scale v b
  | .var m, b =>
    match b with
    | .const v => return ofMonomial { m with quantity := m.quantity * v }
    | .var n => return mulMonomials m n
    | .sum ts => do sumOf (← ts.mapM fun t => mul (ofMonomial m) t)
    | b => prependFactor (ofMonomial m) b.factors
  | .sum ts, b =>
    match b with
    | .sum us => do
      return ofTerms (← ts.foldlM (fun done t => us.foldlM (fun done u => do foldCross (← mul t u) done) done) [])
    | b => do sumOf (← ts.mapM fun t => mul t b)
  | .product fs, b =>
    match b with
    | .const v => return mulConstant v fs
    | .sum ts => do sumOf (← ts.mapM fun t => mul (.product fs) t)
    | b => checkedProduct (fs ++ b.factors)
termination_by a.size + b.size
decreasing_by
  all_goals simp only [size_matrix, size_sum, size_ofMonomial]
  · have := size_le_sizeAll (Grid.mem_cells_of_mem_row p.1.2)
    have := size_le_sizeAll (Grid.mem_cells_of_mem_transpose (Grid.mem_cells_of_mem_row p.2.2))
    omega
  · have := size_le_sizeAll ‹cell ∈ g.cells›
    omega
  · have := size_le_sizeAll ‹cell ∈ h.cells›
    omega
  · have := size_le_sizeAll ‹t ∈ ts›
    simp only [size]
    omega
  · have := size_le_sizeAll ‹t ∈ ts›
    have := size_le_sizeAll ‹u ∈ us›
    omega
  · have := size_le_sizeAll ‹t ∈ ts›
    omega
  · have := size_le_sizeAll ‹t ∈ ts›
    omega

end SymbolicAlgebra.Expr
