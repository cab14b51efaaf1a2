/-
  SymbolicAlgebra.Expr.Factors — products as lists of factors.

  A product built by arithmetic has at most one number among its factors, in front: its
  coefficient. Multiplying by a number goes into that coefficient. To compare two products,
  `splitCoefficient` takes all numbers out, also the quantities of monomials; what is left
  are like terms when both sides have the same factors (`sameFactors`), in any order as long
  as all of them are single numbers.
-/

import SymbolicAlgebra.Expr

namespace SymbolicAlgebra.Expr

variable {α : Type} [Scalar α]

/-- The product of the factors: `1` for none, and a single factor as it is. -/
def ofFactors : List (Expr α) → Expr α
  | [] => .const 1
  | [f] => f
  | fs => .product fs

/-- The product of the factors, if those that are not single numbers chain. -/
def checkedProduct (fs : List (Expr α)) : Except ArithError (Expr α) := do
  let _ ← factorsShape none fs
  return .product fs

/-- The factors of a product, and anything else as its own only factor. -/
def factors : Expr α → List (Expr α)
  | .product fs => fs
  | e => [e]

/-- Puts two values side by side in a product, without simplifying. -/
def chain (a b : Expr α) : Except ArithError (Expr α) := checkedProduct (a.factors ++ b.factors)

/-- Multiplies a product by a number: the number goes into the coefficient in front, which
    disappears when it becomes one. -/
def mulConstant (v : α) (fs : List (Expr α)) : Expr α :=
  if Scalar.nearZero v then .const 0
  else if Scalar.nearOne v then .product fs
  else match fs with
    | .const w :: rest => if Scalar.nearOne (w * v) then ofFactors rest else .product (.const (w * v) :: rest)
    | fs => .product (.const v :: fs)

/-- The product of all the numbers among the factors, the quantities of monomials included,
    and the factors that are left without them. Numbers are multiplied from left to right,
    starting with `coefficient`. -/
def splitFrom (coefficient : α) : List (Expr α) → α × List (Expr α)
  | [] => (coefficient, [])
  | .const v :: fs => splitFrom (coefficient * v) fs
  | .var m :: fs =>
    let (c, rest) := splitFrom (coefficient * m.quantity) fs
    (c, .var m.bare :: rest)
  | f :: fs =>
    let (c, rest) := splitFrom coefficient fs
    (c, f :: rest)

/-- The numeric coefficient of a product and its remaining factors. -/
def splitCoefficient (fs : List (Expr α)) : α × List (Expr α) := splitFrom 1 fs

/-- Every tree of the first list has one of its own in the second that is the same. -/
def matchAll : List (Expr α) → List (Expr α) → Bool
  | [], _ => true
  | e :: es, fs => fs.any (· == e) && matchAll es (fs.eraseP (· == e))

/-- The same factors: in any order when all of them are single numbers, one by one otherwise. -/
def sameFactors (fs gs : List (Expr α)) : Bool :=
  fs.length == gs.length &&
    if fs.all isScalar && gs.all isScalar then matchAll fs gs else beqAll fs gs

/-- The product of the factors from number `start` to number `stop`. -/
def factorRange (fs : List (Expr α)) (start stop : Nat) : Except ArithError (Expr α) :=
  if stop < start ∨ fs.length ≤ stop then throw (.invalidRange start stop fs.length)
  else return ofFactors ((fs.take (stop + 1)).drop start)

end SymbolicAlgebra.Expr
