/-
  SymbolicAlgebra.Proofs.Outcomes.Nodes — the ways in which a single node can come out.

  The operations put their results together with a few functions that leave out what is not needed: a
  monomial that does not depend on its name becomes a number, a sum of one term that term, a number
  times a product goes into the number in front. Each of them is taken apart here once; properties of
  their results go through these lists.
-/

import SymbolicAlgebra.Proofs.Sequence
import SymbolicAlgebra.Expr.Add

namespace SymbolicAlgebra.Expr

variable {α : Type}

theorem kind_ne_matrix {e : Expr α} (h : ∀ g, e ≠ .matrix g) : e.kind ≠ .matrix := by
  cases e with
  | matrix g => exact absurd rfl (h g)
  | _ => nofun

/-! ## Sums and products as they are -/

theorem pair_eq_ok {a b c : Expr α} (h : pair a b = .ok c) :
    ∃ s, a.shape = .ok s ∧ b.shape = .ok s ∧ c = .sum [a, b] := by
  unfold pair at h
  obtain ⟨s, hs, h⟩ := bind_eq_ok.mp h
  obtain ⟨s', hs', h⟩ := bind_eq_ok.mp h
  split at h
  · rename_i e
    subst e
    exact ⟨s, hs, hs', (pure_eq_ok.mp h).symm⟩
  · simp at h

theorem checkedProduct_eq_ok {fs : List (Expr α)} {c : Expr α} (h : checkedProduct fs = .ok c) :
    ∃ s, factorsShape none fs = .ok s ∧ c = .product fs := by
  unfold checkedProduct at h
  obtain ⟨s, hs, h⟩ := bind_eq_ok.mp h
  exact ⟨s, hs, (pure_eq_ok.mp h).symm⟩

/-- A grid goes through cell by cell and keeps its size. -/
theorem mapM_grid_eq_ok {f : Expr α → Except Problem (Expr α)} {g g' : Grid (Expr α)} (h : g.mapM f = .ok g') :
    ∃ cells, List.Forall₂ (fun x c => f x = .ok c) g.cells cells ∧ g' = ⟨g.rows, g.cols, cells⟩ := by
  obtain ⟨cells, hcells, h⟩ := bind_eq_ok.mp h
  exact ⟨cells, mapM_eq_ok.mp hcells, (pure_eq_ok.mp h).symm⟩

/-! ## Nodes that may come down to less -/

variable [Scalar α]

theorem ofMonomial_cases (m : Monomial α) :
    (Scalar.nearZero m.quantity = true ∧ ofMonomial m = .const 0) ∨
      (Scalar.nearZero m.exponent = true ∧ ofMonomial m = .const m.quantity) ∨
        Scalar.nearZero m.quantity = false ∧ Scalar.nearZero m.exponent = false ∧ ofMonomial m = .var m := by
  unfold ofMonomial
  split
  · rename_i hq
    exact Or.inl ⟨hq, rfl⟩
  · rename_i hq
    split
    · rename_i he
      exact Or.inr (Or.inl ⟨he, rfl⟩)
    · rename_i he
      exact Or.inr (Or.inr ⟨eq_false_of_ne_true hq, eq_false_of_ne_true he, rfl⟩)

/-- A monomial becomes a number or stays what it is. -/
theorem ofMonomial_const_or_var (m : Monomial α) : (∃ v, ofMonomial m = .const v) ∨ ofMonomial m = .var m := by
  rcases ofMonomial_cases m with ⟨-, h⟩ | ⟨-, h⟩ | ⟨-, -, h⟩
  · exact Or.inl ⟨0, h⟩
  · exact Or.inl ⟨_, h⟩
  · exact Or.inr h

theorem ofTerms_cases (ts : List (Expr α)) :
    (ts = [] ∧ ofTerms ts = .const 0) ∨ (∃ t, ts = [t] ∧ ofTerms ts = t) ∨ 2 ≤ ts.length ∧ ofTerms ts = .sum ts := by
  match ts with
  | [] => exact Or.inl ⟨rfl, rfl⟩
  | [t] => exact Or.inr (Or.inl ⟨t, rfl, rfl⟩)
  | t :: u :: ts => exact Or.inr (Or.inr ⟨by simp, rfl⟩)

theorem ofFactors_cases (fs : List (Expr α)) :
    (fs = [] ∧ ofFactors fs = .const 1) ∨ (∃ f, fs = [f] ∧ ofFactors fs = f) ∨
      2 ≤ fs.length ∧ ofFactors fs = .product fs := by
  match fs with
  | [] => exact Or.inl ⟨rfl, rfl⟩
  | [f] => exact Or.inr (Or.inl ⟨f, rfl, rfl⟩)
  | f :: g :: fs => exact Or.inr (Or.inr ⟨by simp, rfl⟩)

/-- A range of factors is made out of some of them. -/
theorem factorRange_eq_ok {fs : List (Expr α)} {start stop : Nat} {c : Expr α} (h : factorRange fs start stop = .ok c) :
    ∃ gs, gs ⊆ fs ∧ c = ofFactors gs := by
  obtain ⟨-, h⟩ := ite_throw_eq_ok.mp h
  exact ⟨_, List.Subset.trans (List.drop_subset _ _) (List.take_subset _ _), (pure_eq_ok.mp h).symm⟩

theorem mulConstant_of_zero {v : α} (h : Scalar.nearZero v = true) (fs : List (Expr α)) : mulConstant v fs = .const 0 :=
  if_pos h

/-- A product times a number is zero, or the product as it was; otherwise the number goes into the one in
    front, which may leave with it, or is put in front where there is none. -/
theorem mulConstant_cases (v : α) (fs : List (Expr α)) :
    (Scalar.nearZero v = true ∧ mulConstant v fs = .const 0) ∨ (Scalar.nearOne v = true ∧ mulConstant v fs = .product fs) ∨
      (∃ w rest, fs = .const w :: rest ∧
        (Scalar.nearOne (w * v) = true ∧ mulConstant v fs = ofFactors rest ∨
          mulConstant v fs = .product (.const (w * v) :: rest))) ∨
      (∀ f ∈ fs.head?, f.kind ≠ .constant) ∧ mulConstant v fs = .product (.const v :: fs) := by
  unfold mulConstant
  split
  · rename_i hv
    exact Or.inl ⟨hv, rfl⟩
  · split
    · rename_i hv
      exact Or.inr (Or.inl ⟨hv, rfl⟩)
    · split
      · rename_i w rest
        refine Or.inr (Or.inr (Or.inl ⟨w, rest, rfl, ?_⟩))
        split
        · rename_i hw
          exact Or.inl ⟨hw, rfl⟩
        · exact Or.inr rfl
      · rename_i hne
        refine Or.inr (Or.inr (Or.inr ⟨fun f hf => ?_, rfl⟩))
        obtain ⟨rest, rfl⟩ := List.head?_eq_some_iff.mp hf
        cases f with
        | const w => exact absurd rfl (hne w rest)
        | _ => nofun

end SymbolicAlgebra.Expr
