/-
  SymbolicAlgebra.ArithError — why two values cannot be combined.

  `ArithError` has one constructor for each cause; `ArithError.message` is the only place
  that words them.
-/

import SymbolicAlgebra.Shape

namespace SymbolicAlgebra

/-- The kinds of expression. -/
inductive Kind where
  | constant
  | monomial
  | sum
  | product
  | matrix
  deriving Repr, DecidableEq

/-- The word for a kind. -/
def Kind.name : Kind → String
  | .constant => "constant"
  | .monomial => "variable"
  | .sum => "sum"
  | .product => "product"
  | .matrix => "matrix"

/-- The operations that can be refused. A difference is refused as a sum. -/
inductive Op where
  | add
  | mul
  | div
  | pow
  deriving Repr, DecidableEq

namespace Op

/-- The sign between two operands. -/
def sign : Op → String
  | add => "+"
  | mul => "*"
  | div => "/"
  | pow => "^"

/-- The verb for carrying the operation out. -/
def verb : Op → String
  | add => "add"
  | mul => "multiply"
  | div => "divide"
  | pow => "exponentiate"

end Op

/-- Why an operation has no result. -/
inductive ArithError where
  /-- The shapes do not fit the operation. -/
  | dimensionMismatch (op : Op) (left right : Shape)
  /-- The divisor is as good as zero. -/
  | divisionByZero
  /-- The divisor is not a single number. -/
  | nonScalarDivisor (shape : Shape)
  /-- The operation is not defined between these kinds of value. -/
  | unsupported (op : Op) (left right : Kind)
  /-- The factors from `start` to `stop` were asked of a product of `length` factors. -/
  | invalidRange (start stop length : Nat)
  deriving Repr, DecidableEq

/-- The sentence that reports the error. -/
def ArithError.message : ArithError → String
  | dimensionMismatch op left right =>
    "cannot " ++ op.verb ++ " values of shape " ++ left.text ++ " and " ++ right.text ++
      " (`" ++ left.text ++ " " ++ op.sign ++ " " ++ right.text ++ "`)"
  | divisionByZero => "division by zero"
  | nonScalarDivisor shape => "cannot divide by a value of shape " ++ shape.text
  | unsupported op left right =>
    "unsupported operation: " ++ left.name ++ " " ++ op.sign ++ " " ++ right.name
  | invalidRange start stop length =>
    "invalid factor range " ++ toString start ++ "..=" ++ toString stop ++
      " for a product of " ++ toString length ++ " factors"

end SymbolicAlgebra
