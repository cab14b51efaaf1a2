/-
  SymbolicAlgebra.Expr.PostOrder — a walk over the nodes of a tree, children first.

  The walk keeps a stack of nodes still to be visited and the place of the node it visited
  last. A node on top of the stack whose last child was the last visit is done with its
  children and is visited itself; otherwise its children go on the stack, the leftmost on
  top. Nodes are told apart by their place in the tree, so equal subtrees do not confuse the
  walk.
-/

import SymbolicAlgebra.Expr

namespace SymbolicAlgebra

/-- A node and where it is: the numbers of the children to follow from the root, innermost first. -/
structure Place (α : Type) where
  path : List Nat
  node : Expr α

namespace Place

variable {α : Type}

/-- The children, from left to right. -/
def children (p : Place α) : List (Place α) := p.node.children.mapIdx fun i e => ⟨i :: p.path, e⟩

end Place

/-- A walk under way. -/
structure Walk (α : Type) where
  stack : List (Place α)
  last : Option (List Nat)

namespace Walk

variable {α : Type}

/-- A walk that has not visited anything yet. -/
def ofRoot (e : Expr α) : Walk α := ⟨[⟨[], e⟩], none⟩

/-- The children of the node are behind the walk, or it has none. -/
def isDone (w : Walk α) (p : Place α) : Bool :=
  match p.children.getLast? with
  | none => true
  | some child => w.last == some child.path

/-- Visits the node on top of the stack, or puts its children there. -/
def step (w : Walk α) : Option (Walk α × Option (Expr α)) :=
  match w.stack with
  | [] => none
  | p :: ps =>
    if w.isDone p then some (⟨ps, some p.path⟩, some p.node)
    else some (⟨p.children ++ p :: ps, w.last⟩, none)

/-- The nodes visited in so many steps. -/
def visits : Nat → Walk α → List (Expr α)
  | 0, _ => []
  | n + 1, w =>
    match w.step with
    | none => []
    | some (w', none) => visits n w'
    | some (w', some e) => e :: visits n w'

end Walk

/-- All nodes, children before their parent and from left to right. Every node takes at most two
    steps of the walk. -/
def Expr.postOrder {α : Type} (e : Expr α) : List (Expr α) := (Walk.ofRoot e).visits (2 * e.size)

end SymbolicAlgebra
