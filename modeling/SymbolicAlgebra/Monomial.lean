/-
  SymbolicAlgebra.Monomial — a scaled power of a name, `quantity * name ^ exponent`.

  With a quantity or an exponent as good as zero a monomial no longer depends on its name;
  `Expr.ofMonomial` is where such a monomial turns into a constant.
-/

import SymbolicAlgebra.Scalar

namespace SymbolicAlgebra

/-- The value `quantity * name ^ exponent`. -/
structure Monomial (α : Type) where
  name : String
  quantity : α
  exponent : α
  deriving Repr

namespace Monomial

variable {α : Type} [Scalar α]

/-- The name itself, once and to the first power. -/
def ofName (name : String) : Monomial α := ⟨name, 1, 1⟩

/-- The value does not depend on the name. -/
def isConstant (m : Monomial α) : Bool := Scalar.nearZero m.exponent || Scalar.nearZero m.quantity

/-- Same name and same power, so that a sum adds the quantities. -/
def isLike (m n : Monomial α) : Bool := m.name == n.name && Scalar.near m.exponent n.exponent

def neg (m : Monomial α) : Monomial α := { m with quantity := -m.quantity }

/-- The power on its own, without the quantity. -/
def bare (m : Monomial α) : Monomial α := { m with quantity := 1 }

/-- One over the monomial. -/
def recip (m : Monomial α) : Monomial α := ⟨m.name, 1 / m.quantity, -m.exponent⟩

/-- Two monomials are the same when all their parts are. -/
protected def beq (m n : Monomial α) : Bool :=
  m.name == n.name && m.quantity == n.quantity && m.exponent == n.exponent

end Monomial

end SymbolicAlgebra
