/-
  SymbolicAlgebra.Scalar — the numbers that expressions are built from.

  Expressions are written over any type of numbers that offers the operations of `Scalar`:
  the arithmetic, a test for "as good as equal", a sign test, rounding to an integer, and
  reading and writing. Nothing else is asked of the numbers, in particular no law: the
  binary numbers of `SymbolicAlgebra.Binary64` satisfy few, exact fractions satisfy all.

  Whether two numbers count as equal is an operation (`near`), not a constant of the
  library, because it decides which algebraic shortcuts apply: `x * 1 = x` is taken when
  the factor is near `1`, a term is dropped when it is near `0`, and so on.
-/

namespace SymbolicAlgebra

/-- The operations that expressions need of their numbers. -/
class Scalar (α : Type) extends Zero α, One α, Add α, Mul α, Neg α, Div α, BEq α where
  /-- As good as equal: the test behind every algebraic shortcut. -/
  near : α → α → Bool
  /-- Strictly below zero. -/
  isNegative : α → Bool
  /-- The nearest integer, a half going away from zero. -/
  round : α → α
  /-- The whole part of the absolute value, as a count. -/
  magnitude : α → Nat
  /-- The number in decimal notation. -/
  text : α → String
  /-- The number that a decimal notation stands for. -/
  ofText? : String → Option α

namespace Scalar

variable {α : Type} [Scalar α]

/-- As good as zero. -/
def nearZero (v : α) : Bool := near v 0

/-- As good as one. -/
def nearOne (v : α) : Bool := near v 1

/-- As good as minus one. -/
def nearMinusOne (v : α) : Bool := near v (-1)

end Scalar

end SymbolicAlgebra
