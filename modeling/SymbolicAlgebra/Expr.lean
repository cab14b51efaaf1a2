/-
  SymbolicAlgebra.Expr — the tree of an algebraic expression.

  A node is a constant, a monomial, a sum, a product, or a grid of expressions. Factors keep
  their order, because grids do not commute. The type holds every tree: sums and products of
  any length and nesting, and grids of any contents. What arithmetic guarantees about its
  results is stated in the modules that define it.

  Here are the questions about a tree that need no arithmetic: its kind, its children, its
  shape, the names that occur in it, and whether two trees are the same.
-/

import SymbolicAlgebra.ArithError
import SymbolicAlgebra.Grid
import SymbolicAlgebra.Monomial

namespace SymbolicAlgebra

/-- An algebraic expression over the numbers `α`. -/
inductive Expr (α : Type) where
  | const (value : α)
  | var (m : Monomial α)
  | sum (terms : List (Expr α))
  | product (factors : List (Expr α))
  | matrix (g : Grid (Expr α))

namespace Expr

variable {α : Type}

instance [Scalar α] : Inhabited (Expr α) := ⟨.const 0⟩

/-- A name on its own. -/
def ofName [Scalar α] (name : String) : Expr α := .var (.ofName name)

/-- A monomial, or the constant that it comes down to when its quantity or its exponent is as
    good as zero. -/
def ofMonomial [Scalar α] (m : Monomial α) : Expr α :=
  if Scalar.nearZero m.quantity then .const 0
  else if Scalar.nearZero m.exponent then .const m.quantity
  else .var m

/-- Turns a variable that does not depend on its name into a constant. -/
def collapse [Scalar α] : Expr α → Expr α
  | .var m => ofMonomial m
  | e => e

/-! ## Kind and children -/

def kind : Expr α → Kind
  | .const _ => .constant
  | .var _ => .monomial
  | .sum _ => .sum
  | .product _ => .product
  | .matrix _ => .matrix

/-- The number, if the expression is a constant. -/
def value? : Expr α → Option α
  | .const v => some v
  | _ => none

/-- The terms, factors or cells, in order. -/
def children : Expr α → List (Expr α)
  | .const _ => []
  | .var _ => []
  | .sum ts => ts
  | .product fs => fs
  | .matrix g => g.cells

mutual

/-- The number of nodes. -/
def size : Expr α → Nat
  | .const _ => 1
  | .var _ => 1
  | .sum ts => sizeAll ts + 1
  | .product fs => sizeAll fs + 1
  | .matrix ⟨_, _, cells⟩ => sizeAll cells + 1

/-- The number of nodes of all the expressions together. -/
def sizeAll : List (Expr α) → Nat
  | [] => 0
  | e :: es => size e + sizeAll es

end

theorem size_pos (e : Expr α) : 0 < e.size := by
  cases e <;> simp [size]

theorem size_le_sizeAll {e : Expr α} {es : List (Expr α)} (h : e ∈ es) : e.size ≤ sizeAll es := by
  induction es with
  | nil => cases h
  | cons x xs ih =>
    rcases List.mem_cons.mp h with rfl | h
    · simp [sizeAll]
    · have := ih h
      simp only [sizeAll]
      omega

@[simp] theorem size_sum (ts : List (Expr α)) : (sum ts).size = sizeAll ts + 1 := by simp [size]

@[simp] theorem size_product (fs : List (Expr α)) : (product fs).size = sizeAll fs + 1 := by simp [size]

@[simp] theorem size_matrix (g : Grid (Expr α)) : (matrix g).size = sizeAll g.cells + 1 := by
  cases g; simp [size]

theorem size_term_lt {t : Expr α} {ts : List (Expr α)} (h : t ∈ ts) : t.size < (sum ts).size := by
  rw [size_sum]
  exact Nat.lt_succ_of_le (size_le_sizeAll h)

theorem size_factor_lt {f : Expr α} {fs : List (Expr α)} (h : f ∈ fs) : f.size < (product fs).size := by
  rw [size_product]
  exact Nat.lt_succ_of_le (size_le_sizeAll h)

theorem size_cell_lt {c : Expr α} {g : Grid (Expr α)} (h : c ∈ g.cells) : c.size < (matrix g).size := by
  rw [size_matrix]
  exact Nat.lt_succ_of_le (size_le_sizeAll h)

/-! ## Being the same tree -/

mutual

/-- The same tree: the same kinds at every place, and equal numbers by the test of the
    numbers, which need not hold of a number and itself. -/
protected def beq [Scalar α] : Expr α → Expr α → Bool
  | .const v, .const w => v == w
  | .var m, .var n => m.beq n
  | .sum ts, .sum us => beqAll ts us
  | .product fs, .product gs => beqAll fs gs
  | .matrix ⟨r, c, cells⟩, .matrix ⟨r', c', cells'⟩ => r == r' && c == c' && beqAll cells cells'
  | _, _ => false

/-- As many trees on both sides, each the same as its counterpart. -/
def beqAll [Scalar α] : List (Expr α) → List (Expr α) → Bool
  | [], [] => true
  | e :: es, f :: fs => e.beq f && beqAll es fs
  | _, _ => false

end

instance [Scalar α] : BEq (Expr α) := ⟨Expr.beq⟩

/-! ## Names -/

/-- Puts a name into a list in increasing order, once. -/
def insertName (n : String) : List String → List String
  | [] => [n]
  | m :: ms => if n = m then m :: ms else if n < m then n :: m :: ms else m :: insertName n ms

/-- The names of both lists, in increasing order. -/
def mergeNames (ns ms : List String) : List String := ns.foldr insertName ms

mutual

/-- The names that occur in the expression, each once and in increasing order. Variables count
    even when their value does not depend on the name. -/
def freeNames : Expr α → List String
  | .const _ => []
  | .var m => [m.name]
  | .sum ts => freeNamesAll ts
  | .product fs => freeNamesAll fs
  | .matrix ⟨_, _, cells⟩ => freeNamesAll cells

/-- The names that occur in any of the expressions. -/
def freeNamesAll : List (Expr α) → List String
  | [] => []
  | e :: es => mergeNames (freeNames e) (freeNamesAll es)

end

mutual

/-- The value depends on no name. -/
def isConstant [Scalar α] : Expr α → Bool
  | .const _ => true
  | .var m => m.isConstant
  | .sum ts => allConstant ts
  | .product fs => allConstant fs
  | .matrix ⟨_, _, cells⟩ => allConstant cells

/-- No value depends on a name. -/
def allConstant [Scalar α] : List (Expr α) → Bool
  | [] => true
  | e :: es => isConstant e && allConstant es

end

/-! ## Shapes -/

mutual

/-- The shape of the value. The terms of a sum must agree; the factors of a product that are
    not single numbers must chain, columns with rows. -/
def shape : Expr α → Except ArithError Shape
  | .const _ => .ok .scalar
  | .var _ => .ok .scalar
  | .sum ts => termsShape ts
  | .product fs => factorsShape none fs
  | .matrix g => .ok g.shape

/-- The shape that all terms have, `1x1` when there are none. -/
def termsShape : List (Expr α) → Except ArithError Shape
  | [] => .ok .scalar
  | t :: ts => do
    let left ← shape t
    restShape left ts

/-- The shape `left`, if all further terms have it. -/
def restShape (left : Shape) : List (Expr α) → Except ArithError Shape
  | [] => .ok left
  | t :: ts => do
    let right ← shape t
    if left = right then restShape left ts else throw (.dimensionMismatch .add left right)

/-- The shape of the product of the factors, with `chain` the shape of those before them. -/
def factorsShape (chain : Option Shape) : List (Expr α) → Except ArithError Shape
  | [] => .ok (chain.getD .scalar)
  | f :: fs => do
    let next ← shape f
    if next.isScalar then factorsShape chain fs
    else match chain with
      | none => factorsShape (some next) fs
      | some left =>
        if left.cols = next.rows then factorsShape (some ⟨left.rows, next.cols⟩) fs
        else throw (.dimensionMismatch .mul left next)

end

/-- A single number: it has a shape, and the shape is `1x1`. -/
def isScalar (e : Expr α) : Bool :=
  match e.shape with
  | .ok s => s.isScalar
  | .error _ => false

end Expr

end SymbolicAlgebra
