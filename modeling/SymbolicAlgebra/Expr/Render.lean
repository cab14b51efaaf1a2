/-
  SymbolicAlgebra.Expr.Render — writing an expression in a style.

  Sums get parentheses inside a product or another sum. In a sum, a term that shows a minus is
  written negated, after a minus sign. Of a monomial, a quantity or an exponent as good as one
  is left out, and a negative exponent is written as a quotient.
-/

import SymbolicAlgebra.Expr.Neg
import SymbolicAlgebra.Style

namespace SymbolicAlgebra

variable {α : Type} [Scalar α]

namespace Monomial

/-- A name to a power that is not negative. -/
def renderPower (s : Style α) (name : String) (exponent : α) : String :=
  if Scalar.nearOne exponent then s.name name else s.power (s.name name) (s.constant exponent)

/-- The monomial in a style. -/
def render (s : Style α) (m : Monomial α) : String :=
  if Scalar.nearZero m.exponent then s.constant m.quantity
  else if Scalar.isNegative m.exponent then
    let bottom := renderPower s m.name (-m.exponent)
    if Scalar.nearMinusOne m.quantity then s.parenthesis (s.negate (s.divide (s.constant 1) bottom))
    else s.divide (s.constant m.quantity) bottom
  else
    let powered := renderPower s m.name m.exponent
    if Scalar.nearOne m.quantity then powered
    else if Scalar.nearMinusOne m.quantity then s.parenthesis (s.negate powered)
    else s.times (s.constant m.quantity) powered

end Monomial

namespace Expr

/-- The written factors with the product sign between them. -/
def joinFactors (s : Style α) : List String → String
  | [] => ""
  | f :: fs => fs.foldl s.times f

mutual

/-- The expression in a style; `nested` inside a product or a sum. -/
def renderNested (s : Style α) (nested : Bool) : Expr α → String
  | .const v => s.constant v
  | .var m => m.render s
  | .sum ts => if nested then s.parenthesis (renderTerms s ts) else renderTerms s ts
  | .product fs => joinFactors s (renderEach s true fs)
  | .matrix g => s.matrix g.shape (renderEach s false g.cells)
termination_by e => 2 * e.size
decreasing_by all_goals simp only [size_sum, size_product, size_matrix]; omega

/-- Each expression on its own. -/
def renderEach (s : Style α) (nested : Bool) : List (Expr α) → List String
  | [] => []
  | e :: es => renderNested s nested e :: renderEach s nested es
termination_by es => 2 * sizeAll es + 1
decreasing_by all_goals have := e.size_pos; simp only [sizeAll]; omega

/-- The terms of a sum. -/
def renderTerms (s : Style α) : List (Expr α) → String
  | [] => ""
  | t :: ts => renderMore s (renderNested s true t) ts
termination_by ts => 2 * sizeAll ts + 1
decreasing_by all_goals have := t.size_pos; simp only [sizeAll]; omega

/-- The terms of a sum after those that are written already. -/
def renderMore (s : Style α) (written : String) : List (Expr α) → String
  | [] => written
  | t :: ts =>
    if _h : t.isNegative then renderMore s (s.minus written (renderNested s true t.neg)) ts
    else renderMore s (s.plus written (renderNested s true t)) ts
termination_by ts => 2 * sizeAll ts + 1
decreasing_by
  · rw [size_neg_of_isNegative _h]; simp only [sizeAll]; omega
  all_goals have := t.size_pos; simp only [sizeAll]; omega

end

/-- The expression in a style. -/
def render (s : Style α) (e : Expr α) : String := e.renderNested s false

end Expr

end SymbolicAlgebra
