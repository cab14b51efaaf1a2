/-
  SymbolicAlgebra.Expr.Substitute — putting a value in the place of a name.

  A monomial `q * name ^ e` becomes `q * value * … * value`, with one over the power for a
  negative exponent; only integer exponents can be expanded. The tree around the monomial
  stays as it is, so the result may hold products within products.
-/

import SymbolicAlgebra.Expr.Div

namespace SymbolicAlgebra.Expr

variable {α : Type} [Scalar α]

/-- Multiplies by `value` so many times, on the right. -/
def mulTimes (value : Expr α) : Nat → Expr α → Except ArithError (Expr α)
  | 0, e => return e
  | n + 1, e => do mulTimes value n (← e.mul value)

/-- What a monomial becomes when its name stands for `value`. -/
def expand (m : Monomial α) (value : Expr α) : Except ArithError (Expr α) := do
  let power := Scalar.round m.exponent
  if !Scalar.near power m.exponent then throw (.unsupported .pow value.kind .constant)
  else match Scalar.magnitude power with
    | 0 => return .const m.quantity
    | times + 1 =>
      let powered ← mulTimes value times value
      let powered ← if Scalar.isNegative power then div (.const 1) powered else pure powered
      if Scalar.nearOne m.quantity then return powered else mul (.const m.quantity) powered

mutual

/-- The expression with `value` in the place of `name`. -/
def substitute (e : Expr α) (name : String) (value : Expr α) : Except ArithError (Expr α) :=
  match e with
  | .const v => return .const v
  | .var m => if m.name == name then expand m value else return .var m
  | .sum ts => return .sum (← substituteAll ts name value)
  | .product fs => return .product (← substituteAll fs name value)
  | .matrix ⟨r, c, cells⟩ => return .matrix ⟨r, c, ← substituteAll cells name value⟩

/-- Each of the expressions with `value` in the place of `name`. -/
def substituteAll (es : List (Expr α)) (name : String) (value : Expr α) : Except ArithError (List (Expr α)) :=
  match es with
  | [] => return []
  | e :: es => return (← substitute e name value) :: (← substituteAll es name value)

end

end SymbolicAlgebra.Expr
