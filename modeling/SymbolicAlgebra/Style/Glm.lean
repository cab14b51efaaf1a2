/-
  SymbolicAlgebra.Style.Glm — expressions for the matrix library GLM.

  GLM keeps its matrices column by column, so that is how cells are written. An underscore in
  a name is written as a point, which makes the name a member of a structure. A square is
  written as a multiplication, any other power as a call of `pow`.
-/

import SymbolicAlgebra.Style

namespace SymbolicAlgebra.Style

variable {α : Type} [Scalar α]

def glmName (n : String) : String := String.ofList (n.toList.map fun c => if c = '_' then '.' else c)

/-- A line for each column, with the cells that there are: none in a row whose number is not
    less than the number of cells. -/
def glmMatrix (shape : Shape) (cells : List String) : String :=
  let cells := cells.toArray
  let rows := List.range (min shape.rows cells.size)
  let column (j : Nat) := rows.filterMap fun i => cells[i * shape.cols + j]?
  let lines := (List.range shape.cols).map fun j => "    " ++ joinWith ", " (column j) ++ ",\n"
  "\x7b\n" ++ String.join lines ++ "\x7d;"

def glmPower (base exponent : String) : String :=
  if exponent = "2" then spaced "*" base base else "pow(" ++ base ++ ", " ++ exponent ++ ")"

/-- A definition, ended by one semicolon: a grid brings its own. -/
def glmAssign (name value : String) : String :=
  glmName name ++ " = " ++ value ++ (if value.toList.getLast? = some ';' then "\n" else ";\n")

/-- Expressions for GLM. -/
def glm : Style α where
  constant v := if Scalar.isNegative v then "(" ++ number v ++ ")" else number v
  name := glmName
  matrix := glmMatrix
  parenthesis inner := "(" ++ inner ++ ")"
  plus := spaced "+"
  minus := spaced "-"
  times := spaced "*"
  divide := spaced "/"
  power := glmPower
  negate inner := "-" ++ inner
  assign := glmAssign

end SymbolicAlgebra.Style
