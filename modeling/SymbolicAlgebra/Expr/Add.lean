/-
  SymbolicAlgebra.Expr.Add — addition that merges like terms.

  A sum keeps its terms apart by the names that occur in them. A new term is added to the
  first term with the same names with which it makes one node; if it only makes a sum with
  them, that sum takes the place of the first; if there is none, it goes to the end.

  Three operations lean on one another: addition asks whether terms are zero, a sum is zero
  when adding its terms pairwise cancels them, and merging two like products scales what they
  have in common, which for a sum is an addition again. None of them recurses on a part of its
  argument only, so they are defined in two steps. `Calls.addStep`, `Calls.isZeroStep` and
  `Calls.scaleStep` say what one call does, given the operations that it may call in turn; they
  recurse on lists only. `addWithin`, `isZeroWithin` and `scaleWithin` let the calls nest at most
  as deep as a number says and stop with `Stop.outOfSteps` when that is not enough. `Expr.add`,
  `Expr.isZero` and `Expr.scale` take a number that is enough, computed by `weight`.

  `weight` counts nodes in such a way that no operation has a result heavier than its
  arguments: numbers do not count in a product, since a coefficient may appear, and a grid
  counts its heaviest cell only, since a value that is added to it goes into every cell.
-/

import SymbolicAlgebra.Expr.Neg
import SymbolicAlgebra.Expr.Factors

namespace SymbolicAlgebra

/-- Why a bounded computation has no answer. -/
inductive Stop where
  /-- The calls would nest deeper than allowed. -/
  | outOfSteps
  /-- The operation has no result. -/
  | refused (e : ArithError)
  deriving Repr, DecidableEq

/-- A plain operation as a step of a bounded computation. -/
instance : MonadLift (Except ArithError) (Except Stop) := ⟨Except.mapError .refused⟩

namespace Expr

variable {α : Type}

/-! ## Sums of two values -/

section
variable [Scalar α]

/-- Two values of one shape side by side in a sum, without merging. -/
def pair (a b : Expr α) : Except ArithError (Expr α) := do
  let left ← a.shape
  let right ← b.shape
  if left = right then return .sum [a, b] else throw (.dimensionMismatch .add left right)

/-- The sum of the terms: `0` for none, and a single term as it is. -/
def ofTerms : List (Expr α) → Expr α
  | [] => .const 0
  | [t] => t
  | ts => .sum ts

end

/-! ## One call -/

/-- The operations that a call may make in turn. -/
structure Calls (α : Type) where
  add : Expr α → Expr α → Except Stop (Expr α)
  isZero : Expr α → Except Stop Bool
  scale : α → Expr α → Except Stop (Expr α)

namespace Calls

variable [Scalar α] (call : Calls α)

/-- What became of a term that was offered to the terms of a sum. -/
inductive Offer (α : Type) where
  /-- It made one node with a term, which is replaced, or dropped if that node is zero. -/
  | merged (terms : List (Expr α))
  /-- It only made a sum with a term of the same names; that sum takes the term's place. -/
  | grouped (terms : List (Expr α))
  /-- No term has the same names. -/
  | apart

/-- Offers `t`, in which the names `ns` occur, to the terms one after the other. -/
def offer (t : Expr α) (ns : List String) : List (Expr α) → Except Stop (Offer α)
  | [] => return .apart
  | x :: xs => do
    if x.freeNames != ns then
      match ← offer t ns xs with
      | .merged xs' => return .merged (x :: xs')
      | .grouped xs' => return .grouped (x :: xs')
      | .apart => return .apart
    else
      match ← call.add x t with
      | .sum ms =>
        match ← offer t ns xs with
        | .merged xs' => return .merged (x :: xs')
        | _ => return .grouped (.sum ms :: xs)
      | m => if ← call.isZero m then return .merged xs else return .merged (m :: xs)

/-- Adds a term to the terms of a sum. -/
def addTerm (ts : List (Expr α)) (t : Expr α) : Except Stop (List (Expr α)) := do
  if ← call.isZero t then return ts
  match ← call.offer t t.freeNames ts with
  | .merged ts' => return ts'
  | .grouped ts' => return ts'
  | .apart => return ts ++ [t]

/-- Adds a value to a sum; the terms of another sum are added one by one. -/
def addToSum (ts : List (Expr α)) (b : Expr α) : Except Stop (Expr α) := do
  let left ← (Expr.sum ts).shape
  let right ← b.shape
  if left ≠ right then throw (.refused (.dimensionMismatch .add left right))
  match b with
  | .sum us => return ofTerms (← us.foldlM call.addTerm ts)
  | b => return ofTerms (← call.addTerm ts b)

/-- Adds up the terms from left to right. -/
def sumOf : List (Expr α) → Except Stop (Expr α)
  | [] => return .const 0
  | t :: ts => ts.foldlM call.add t

/-- The number times the only factor that two like products have in common. A grid is negated
    as a whole, and multiplied cell by cell. -/
def scaleFactor (v : α) (f : Expr α) : Except Stop (Expr α) :=
  match f with
  | .matrix g =>
    if Scalar.nearOne v then return f
    else if Scalar.nearMinusOne v then return f.neg
    else return .matrix (← g.mapM (call.scale v))
  | f => call.scale v f

/-- The product of a coefficient and factors without numbers. -/
def scaleFactors (v : α) (fs : List (Expr α)) : Except Stop (Expr α) :=
  if Scalar.nearZero v then return .const 0
  else match fs with
    | [] => return .const v
    | [f] => call.scaleFactor v f
    | fs => return .product (if Scalar.nearOne v then fs else .const v :: fs)

/-- Two products are like terms when they have the same factors apart from numbers. -/
def addProducts (fs gs : List (Expr α)) : Except Stop (Expr α) :=
  let (c, rest) := splitCoefficient fs
  let (d, rest') := splitCoefficient gs
  if !rest.isEmpty && sameFactors rest rest' then call.scaleFactors (c + d) rest
  else pair (.product fs) (.product gs)

/-- Adds a value to every cell of a grid if it is a single number, beside the grid if it has the
    grid's shape. -/
def addToGrid (g : Grid (Expr α)) (b : Expr α) : Except Stop (Expr α) := do
  let s ← b.shape
  if s.isScalar then return .matrix (← g.mapM fun cell => call.add cell b)
  else if s = g.shape then pair (.matrix g) b
  else throw (.refused (.dimensionMismatch .add g.shape s))

/-- Adds a grid on the right of a value that is none. -/
def addGridTo (a : Expr α) (g : Grid (Expr α)) : Except Stop (Expr α) := do
  let s ← a.shape
  if s.isScalar then return .matrix (← g.mapM fun cell => call.add a cell)
  else if s = g.shape then pair a (.matrix g)
  else throw (.refused (.dimensionMismatch .add s g.shape))

/-- Adds a value that merges with nothing, unless it is zero. -/
def addUnlike (a b : Expr α) : Except Stop (Expr α) := do
  if ← call.isZero b then return a else pair a b

/-- One addition. -/
def addStep : Expr α → Expr α → Except Stop (Expr α)
  | .matrix g, .matrix h =>
    if g.shape = h.shape then return .matrix (← g.zipM call.add h)
    else throw (.refused (.dimensionMismatch .add g.shape h.shape))
  | .matrix g, b => call.addToGrid g b
  | a, .matrix h => call.addGridTo a h
  | .const v, b =>
    if Scalar.nearZero v then return b
    else match b with
      | .const w => return .const (v + w)
      | .sum ts => call.addToSum ts (.const v)
      | b => call.addUnlike (.const v) b
  | .var m, b =>
    match b with
    | .var n =>
      if m.isLike n then return ofMonomial { m with quantity := m.quantity + n.quantity }
      else call.addUnlike (ofMonomial m) (.var n)
    | .sum ts => call.addToSum ts (ofMonomial m)
    | b => call.addUnlike (ofMonomial m) b
  | .sum ts, b => call.addToSum ts b
  | .product fs, b => do
    if ← call.isZero b then return .product fs
    match b with
    | .sum ts => call.addToSum ts (.product fs)
    | .product gs => call.addProducts fs gs
    | b => pair (.product fs) b

/-- The term cancels with `x`: their sum is one node and zero. -/
def cancels (x t : Expr α) : Except Stop Bool :=
  match call.add x t with
  | .ok (.sum _) => return false
  | .ok r => call.isZero r
  | .error .outOfSteps => throw .outOfSteps
  | .error (.refused _) => return false

/-- Drops the first term that cancels with `t`, if there is one. -/
def cancelFirst? (t : Expr α) : List (Expr α) → Except Stop (Option (List (Expr α)))
  | [] => return none
  | x :: xs => do
    if ← call.cancels x t then return some xs
    else return (← cancelFirst? t xs).map (x :: ·)

/-- Adds a term to those that nothing has cancelled so far. -/
def keep (kept : List (Expr α)) (t : Expr α) : Except Stop (List (Expr α)) := do
  match ← call.cancelFirst? t kept with
  | some rest => return rest
  | none => if ← call.isZero t then return kept else return kept ++ [t]

/-- One zero test: a number or a quantity as good as zero, a zero factor, zeros in all cells, or
    terms that cancel pairwise. -/
def isZeroStep : Expr α → Except Stop Bool
  | .const v => return Scalar.nearZero v
  | .var m => return Scalar.nearZero m.quantity
  | .sum ts => return (← ts.foldlM call.keep []).isEmpty
  | .product fs => fs.anyM call.isZero
  | .matrix g => g.cells.allM call.isZero

/-- One multiplication by a number from the left. -/
def scaleStep (v : α) : Expr α → Except Stop (Expr α)
  | .matrix g => return .matrix (← g.mapM (call.scale v))
  | e =>
    if Scalar.nearZero v then return .const 0
    else if Scalar.nearOne v then return e
    else match e with
      | .const w => return .const (v * w)
      | e =>
        if Scalar.nearMinusOne v then return e.neg
        else match e with
          | .var m => return ofMonomial { m with quantity := m.quantity * v }
          | .sum ts => do call.sumOf (← ts.mapM (call.scale v))
          | .product fs => return mulConstant v fs
          | e => return e

end Calls

/-! ## Calls that nest to a bounded depth -/

mutual

/-- Addition with at most so many calls inside one another. -/
def addWithin [Scalar α] : Nat → Expr α → Expr α → Except Stop (Expr α)
  | 0, _, _ => throw .outOfSteps
  | n + 1, a, b => Calls.addStep ⟨addWithin n, isZeroWithin n, scaleWithin n⟩ a b

/-- The zero test with at most so many calls inside one another. -/
def isZeroWithin [Scalar α] : Nat → Expr α → Except Stop Bool
  | 0, _ => throw .outOfSteps
  | n + 1, e => Calls.isZeroStep ⟨addWithin n, isZeroWithin n, scaleWithin n⟩ e

/-- Multiplication by a number with at most so many calls inside one another. -/
def scaleWithin [Scalar α] : Nat → α → Expr α → Except Stop (Expr α)
  | 0, _, _ => throw .outOfSteps
  | n + 1, v, e => Calls.scaleStep ⟨addWithin n, isZeroWithin n, scaleWithin n⟩ v e

end

mutual

/-- A count of nodes that bounds the depth of the calls. -/
def weight : Expr α → Nat
  | .const _ => 1
  | .var _ => 1
  | .sum ts => weightTerms ts + (if ts.length < 2 then 1 else 0)
  | .product fs => weightFactors fs + 2
  | .matrix ⟨_, _, cells⟩ => weightCells cells + 1

/-- The weights of all terms together. -/
def weightTerms : List (Expr α) → Nat
  | [] => 0
  | t :: ts => weight t + weightTerms ts

/-- The weights of all factors together, numbers left out. -/
def weightFactors : List (Expr α) → Nat
  | [] => 0
  | .const _ :: fs => weightFactors fs
  | f :: fs => weight f + weightFactors fs

/-- The greatest of the weights. -/
def weightCells : List (Expr α) → Nat
  | [] => 0
  | c :: cs => max (weight c) (weightCells cs)

end

/-! ## The operations -/

variable [Scalar α]

/-- The outcome of a computation whose bound is enough; `spare` is for one whose bound is not. -/
def settle {β : Type} (spare : Except ArithError β) : Except Stop β → Except ArithError β
  | .ok r => .ok r
  | .error (.refused e) => .error e
  | .error .outOfSteps => spare

/-- The sum of two values. -/
def add (a b : Expr α) : Except ArithError (Expr α) :=
  settle (pair a b) (addWithin (2 * (a.weight + b.weight) + 2) a b)

/-- The value is zero, as far as a number as good as zero, a zero factor, zero cells and terms that
    cancel pairwise show it. -/
def isZero (e : Expr α) : Bool :=
  match isZeroWithin (2 * e.weight + 2) e with
  | .ok r => r
  | .error _ => false

/-- The number times the value, the number on the left. -/
def scale (v : α) (e : Expr α) : Except ArithError (Expr α) :=
  settle (chain (.const v) e) (scaleWithin (2 * e.weight + 2) v e)

/-- The difference of two values: the sum with the negated right one. -/
def sub (a b : Expr α) : Except ArithError (Expr α) := a.add b.neg

/-- Adds up the terms from left to right, merging them. -/
def sumOf : List (Expr α) → Except ArithError (Expr α)
  | [] => return .const 0
  | t :: ts => ts.foldlM add t

end Expr

end SymbolicAlgebra
