/-
  SymbolicAlgebra.Style.Plain — the definition language itself, compact or spaced out.

  Negative numbers are put in parentheses. In the spaced form blanks surround the operators,
  every row of a grid has a line of its own, and every definition ends its line.
-/

import SymbolicAlgebra.Style

namespace SymbolicAlgebra.Style

variable {α : Type} [Scalar α]

/-- Two texts with a sign between them. -/
def operator (pretty : Bool) (sign left right : String) : String :=
  if pretty then spaced sign left right else left ++ sign ++ right

def plainParenthesis (pretty : Bool) (inner : String) : String :=
  if pretty then "( " ++ inner ++ " )" else "(" ++ inner ++ ")"

/-- The rows from number `i` on; `rows` is how many the shape promises, and all but the last of
    those end with a semicolon. -/
def plainRows (pretty : Bool) (rows : Nat) : Nat → List (List String) → String
  | _, [] => ""
  | i, row :: rest =>
    (if pretty then "\n    " else "") ++ joinWith (if pretty then ", " else ",") row ++
      (if i + 1 < rows then ";" else "") ++ plainRows pretty rows (i + 1) rest

def plainMatrix (pretty : Bool) (shape : Shape) (cells : List String) : String :=
  "[" ++ plainRows pretty shape.rows 0 (chunks shape.cols cells) ++ (if pretty then "\n]" else "]")

/-- The definition language, spaced out if `pretty`. -/
def plain (pretty : Bool) : Style α where
  constant v := if Scalar.isNegative v then plainParenthesis pretty (number v) else number v
  name n := n
  matrix := plainMatrix pretty
  parenthesis := plainParenthesis pretty
  plus := operator pretty "+"
  minus := operator pretty "-"
  times := operator pretty "*"
  divide := operator pretty "/"
  power base exponent := base ++ "^" ++ exponent
  negate inner := "-" ++ inner
  assign name value := if pretty then name ++ " = " ++ value ++ ";\n" else name ++ "=" ++ value ++ ";"

end SymbolicAlgebra.Style
