/-
  SymbolicAlgebra.Expr.Neg — negation.

  A number or a monomial changes its sign, a sum or a grid changes the sign of each child.
  A product changes one sign only: that of the first factor that shows a minus, else of the
  first number or monomial, and only if it has neither does it get a factor `-1`.
-/

import SymbolicAlgebra.Expr

namespace SymbolicAlgebra.Expr

variable {α : Type} [Scalar α]

/-- A number or a monomial: what can carry a sign of its own. -/
def isNumeric : Expr α → Bool
  | .const _ => true
  | .var _ => true
  | _ => false

/-- A number or a monomial with a minus. -/
def isSigned : Expr α → Bool
  | .const v => Scalar.isNegative v
  | .var m => Scalar.isNegative m.quantity
  | _ => false

/-- Changes the sign of a number or a monomial. -/
def flipSign : Expr α → Expr α
  | .const v => .const (-v)
  | .var m => .var m.neg
  | e => e

/-- Applies `f` to the first element that passes the test, if there is one. -/
def updateFirst? {β : Type} (p : β → Bool) (f : β → β) : List β → Option (List β)
  | [] => none
  | x :: xs => if p x then some (f x :: xs) else (updateFirst? p f xs).map (x :: ·)

/-- The factors of the negated product. -/
def negFactors (fs : List (Expr α)) : List (Expr α) :=
  match updateFirst? isSigned flipSign fs with
  | some gs => gs
  | none => (updateFirst? isNumeric flipSign fs).getD (.const (-1) :: fs)

mutual

/-- Minus the expression. -/
def neg : Expr α → Expr α
  | .const v => .const (-v)
  | .var m => .var m.neg
  | .sum ts => .sum (negAll ts)
  | .product fs => .product (negFactors fs)
  | .matrix ⟨r, c, cells⟩ => .matrix ⟨r, c, negAll cells⟩

/-- Minus each of the expressions. -/
def negAll : List (Expr α) → List (Expr α)
  | [] => []
  | e :: es => neg e :: negAll es

end

/-- The expression shows a minus that a subtraction can take over. -/
def isNegative : Expr α → Bool
  | .product fs => fs.any isSigned
  | e => e.isSigned

/-! ## Negation keeps the number of nodes of what shows a minus -/

theorem size_flipSign (e : Expr α) : e.flipSign.size = e.size := by
  cases e <;> simp [flipSign, size]

theorem sizeAll_updateFirst? {p : Expr α → Bool} {fs gs : List (Expr α)}
    (h : updateFirst? p flipSign fs = some gs) : sizeAll gs = sizeAll fs := by
  induction fs generalizing gs with
  | nil => cases h
  | cons x xs ih =>
    simp only [updateFirst?] at h
    split at h
    · cases h
      simp [sizeAll, size_flipSign]
    · obtain ⟨ys, hys, rfl⟩ := Option.map_eq_some_iff.mp h
      simp [sizeAll, ih hys]

theorem updateFirst?_eq_none {β : Type} {p : β → Bool} {f : β → β} {xs : List β}
    (h : updateFirst? p f xs = none) : xs.any p = false := by
  induction xs with
  | nil => rfl
  | cons x xs ih =>
    simp only [updateFirst?] at h
    split at h
    · cases h
    · rename_i hx
      simp [List.any_cons, hx, ih (Option.map_eq_none_iff.mp h)]

theorem size_neg_of_isNegative {e : Expr α} (h : e.isNegative = true) : e.neg.size = e.size := by
  cases e with
  | const v => rfl
  | var m => rfl
  | sum ts => cases h
  | matrix g => cases h
  | product fs =>
    simp only [neg, negFactors, size_product]
    split
    · rename_i hgs
      rw [sizeAll_updateFirst? hgs]
    · rename_i hn
      rw [isNegative, updateFirst?_eq_none hn] at h
      cases h

end SymbolicAlgebra.Expr
