/-
  SymbolicAlgebra.Proofs.Tidying — tidying a tree without grids succeeds and keeps its value.

  Tidying multiplies the factors of a product again, so it can fail where a multiplication can; without
  grids none does (`normalize_gridless`). A variable that does not depend on its name becomes a
  constant, which is its value wherever it has one.
-/

import SymbolicAlgebra.Proofs.Substitution
import SymbolicAlgebra.Proofs.Totality

namespace SymbolicAlgebra.Expr

section
variable {α : Type} [Scalar α]

theorem recombine_zero {fs : List (Expr α)} (h : Scalar.nearZero (splitCoefficient fs).1 = true) :
    recombine fs = .ok (.const 0) := if_pos h

theorem recombine_cons {fs more : List (Expr α)} {first : Expr α} (h : Scalar.nearZero (splitCoefficient fs).1 = false)
    (hr : (splitCoefficient fs).2 = first :: more) :
    recombine fs = more.foldlM mul first >>= mul (.const (splitCoefficient fs).1) := by
  unfold recombine
  dsimp only
  rw [if_neg (by simp [h]), hr]

theorem recombine_nil {fs : List (Expr α)} (h : Scalar.nearZero (splitCoefficient fs).1 = false)
    (hr : (splitCoefficient fs).2 = []) : recombine fs = .ok (.const (splitCoefficient fs).1) := by
  unfold recombine
  dsimp only
  rw [if_neg (by simp [h]), hr]
  rfl

/-- Multiplying factors gives a number, or what comes of the first factor, the others and the number that is
    taken out of all of them. -/
theorem recombine_ends {allowed : ArithError → Prop} {Q : Expr α → Prop} {fs : List (Expr α)}
    (const : ∀ v, Q (.const v))
    (h : ∀ first more, Scalar.nearZero (splitCoefficient fs).1 = false → (splitCoefficient fs).2 = first :: more →
      Ends allowed Q (more.foldlM mul first >>= mul (.const (splitCoefficient fs).1))) :
    Ends allowed Q (recombine fs) := by
  cases h0 : Scalar.nearZero (splitCoefficient fs).1 with
  | true =>
    rw [recombine_zero h0]
    exact const 0
  | false =>
    cases hr : (splitCoefficient fs).2 with
    | nil =>
      rw [recombine_nil h0 hr]
      exact const _
    | cons first more =>
      rw [recombine_cons h0 hr]
      exact h first more h0 hr

theorem recombine_gridless {fs : List (Expr α)} (hfs : ∀ f ∈ fs, Gridless f) : Succeeds Gridless (recombine fs) := by
  have hrest : ∀ f ∈ (splitCoefficient fs).2, Gridless f := Everywhere.splitFrom gridless_kept hfs
  refine recombine_ends .const fun first more _ hr => ?_
  rw [hr] at hrest
  obtain ⟨hfirst, hmore⟩ := List.forall_mem_cons.mp hrest
  have hmul : Succeeds Gridless (more.foldlM mul first) :=
    Ends.foldlM hfirst fun p hp f hf => mul_gridless hp (hmore f hf)
  exact hmul.bind fun p hp => mul_gridless (.const _) hp

theorem normalizeFactors_ends {allowed : ArithError → Prop} {Q : Expr α → Expr α → Prop} {fs : List (Expr α)}
    (h : ∀ f ∈ fs, Ends allowed (Q f) (normalize f)) :
    Ends allowed (fun gs => ∃ hs, List.Forall₂ Q fs hs ∧ gs = hs.flatMap factors) (normalizeFactors fs) := by
  induction fs with
  | nil => exact ⟨[], .nil, rfl⟩
  | cons f fs ih =>
    obtain ⟨hf, hfs⟩ := List.forall_mem_cons.mp h
    unfold normalizeFactors
    refine hf.bind fun g hg => (ih hfs).bind ?_
    rintro _ ⟨hs, hhs, rfl⟩
    exact ⟨g :: hs, .cons hg hhs, List.flatMap_cons.symm⟩

theorem normalizeCells_ends {allowed : ArithError → Prop} {Q : Expr α → Prop} {cells : List (Expr α)}
    (h : ∀ c ∈ cells, Ends allowed Q (normalize c)) : Ends allowed (fun ds => ∀ d ∈ ds, Q d) (normalizeCells cells) := by
  induction cells with
  | nil => exact List.forall_mem_nil _
  | cons c cs ih =>
    obtain ⟨hc, hcs⟩ := List.forall_mem_cons.mp h
    unfold normalizeCells
    exact hc.bind fun d hd => (ih hcs).bind fun ds hds => List.forall_mem_cons.mpr ⟨hd, hds⟩

/-- A tree without grids is always tidied, to one without grids. -/
theorem normalize_gridless {e : Expr α} (he : Gridless e) : Succeeds Gridless (normalize e) := by
  induction e with
  | const v =>
    unfold normalize
    exact he
  | var m =>
    unfold normalize
    exact Everywhere.collapse he
  | sum ts =>
    unfold normalize
    exact he
  | product fs ih =>
    have hfs := Everywhere.product_iff.mp he
    unfold normalize
    refine (normalizeFactors_ends (Q := fun _ => Gridless) fun f hf => ih f hf (hfs f hf)).bind ?_
    rintro _ ⟨gs, hgs, rfl⟩
    exact recombine_gridless (forall_mem_spliced hgs fun _ _ _ h => h.factors)
  | matrix g => exact (Everywhere.matrix_iff.mp he).1.elim

end

/-- A tree without grids, however its sums and products are nested, is tidied to one that stands for
    the same number wherever the tree stands for one. -/
theorem normalize_sound {e : Expr ℚ} (he : Gridless e) :
    ∃ c, e.normalize = .ok c ∧ Gridless c ∧ ∀ ρ, DefinedAt ρ e → Denotes ρ c (eval ρ e) := by
  obtain ⟨c, hc, hgridless⟩ := (normalize_gridless he).eq_ok
  exact ⟨c, hc, hgridless, fun ρ hρ => normalize_denotes hc hρ⟩

/-- The product of `3 x ^ 0` and a nested product, at `x = y = 2`. -/
theorem normalize_sound_nested :
    let e : Expr ℚ := .product [.var ⟨"x", 3, 0⟩, .product [.var ⟨"y", 2, -1⟩, .sum [.var ⟨"x", 1, 1⟩, .const 1]]]
    ∃ c, e.normalize = .ok c ∧ Denotes (fun _ => 2) c 9 := by
  intro e
  obtain ⟨c, hc, -, hdenotes⟩ := normalize_sound (e := e) (by simp [e, Gridless])
  have hdefined : DefinedAt (fun _ => 2) e := by
    have hmonomial (name : String) (q : ℚ) (k : ℤ) : Monomial.DefinedAt (fun _ => 2) ⟨name, q, k⟩ :=
      ⟨k, rfl, fun _ => two_ne_zero⟩
    simpa [e, DefinedAt, assigned] using And.intro (hmonomial "x" 3 0) (And.intro (hmonomial "y" 2 (-1)) (hmonomial "x" 1 1))
  have heval : eval (fun _ => 2) e = 9 := by
    have hfloor : ⌊(-1 : ℚ)⌋ = -1 := by norm_num
    simp [e, Monomial.eval, hfloor]
    norm_num
  exact ⟨c, hc, heval ▸ hdenotes _ hdefined⟩

end SymbolicAlgebra.Expr
