/-
  SymbolicAlgebra.Style.Latex — LaTeX math.

  Products are written side by side, quotients as fractions, and the names of Greek letters
  as the letters.
-/

import SymbolicAlgebra.Style

namespace SymbolicAlgebra.Style

variable {α : Type} [Scalar α]

/-- The names that stand for Greek letters. -/
def greekLetters : List String :=
  ["alpha", "beta", "gamma", "delta", "epsilon", "zeta", "eta", "theta", "iota", "kappa", "lambda", "mu",
    "nu", "xi", "pi", "rho", "sigma", "tau", "upsilon", "phi", "chi", "psi", "omega", "Gamma", "Delta",
    "Theta", "Lambda", "Xi", "Pi", "Sigma", "Upsilon", "Phi", "Psi", "Omega"]

def latexName (n : String) : String := if greekLetters.contains n then "\\" ++ n else n

def latexMatrix (shape : Shape) (cells : List String) : String :=
  "\\begin\x7bbmatrix\x7d " ++ joinWith " \\\\ " ((chunks shape.cols cells).map (joinWith " & ")) ++
    " \\end\x7bbmatrix\x7d"

/-- LaTeX math. -/
def latex : Style α where
  constant := number
  name := latexName
  matrix := latexMatrix
  parenthesis inner := "\\left(" ++ inner ++ "\\right)"
  plus := spaced "+"
  minus := spaced "-"
  times left right := left ++ " " ++ right
  divide top bottom := "\\frac\x7b" ++ top ++ "\x7d\x7b" ++ bottom ++ "\x7d"
  power base exponent := base ++ "^\x7b" ++ exponent ++ "\x7d"
  negate inner := "-" ++ inner
  assign name value := latexName name ++ " = " ++ value ++ "\n"

end SymbolicAlgebra.Style
