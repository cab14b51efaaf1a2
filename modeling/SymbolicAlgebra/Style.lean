/-
  SymbolicAlgebra.Style — how the pieces of an expression are written in a target language.

  A style says how to write a number, a name, a grid of written cells, and the operators that
  join what is written already. It knows nothing of trees; `Expr.render` walks a tree and asks
  the style for each piece.
-/

import SymbolicAlgebra.Scalar
import SymbolicAlgebra.Grid

namespace SymbolicAlgebra

/-- The pieces of a target language. All texts that are given are written already. -/
structure Style (α : Type) where
  constant : α → String
  name : String → String
  /-- A grid of the given shape from its written cells, row after row. -/
  matrix : Shape → List String → String
  parenthesis : String → String
  plus : String → String → String
  minus : String → String → String
  times : String → String → String
  divide : String → String → String
  power : String → String → String
  negate : String → String
  /-- A whole definition, from the name as it was defined and the written value. -/
  assign : String → String → String

namespace Style

/-- The texts with `sep` between them. -/
def joinWith (sep : String) : List String → String
  | [] => ""
  | [s] => s
  | s :: t :: rest => s ++ sep ++ joinWith sep (t :: rest)

/-- A number in decimal notation; both zeros are written `0`. -/
def number {α : Type} [Scalar α] (v : α) : String := if v == 0 then "0" else Scalar.text v

/-- Two texts with a sign and blanks between them. -/
def spaced (sign left right : String) : String := left ++ " " ++ sign ++ " " ++ right

end Style

end SymbolicAlgebra
