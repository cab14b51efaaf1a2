/-
  SymbolicAlgebra.Proofs.Substitution — what substitution and tidying do to the value of a tree.

  Putting a value in the place of a name is reading the tree with that value for the name
  (`substitute_denotes`), also when the value mentions the name itself; without grids nothing more is
  needed than that the readings exist (`substitute_sound`). Tidying changes nothing
  (`normalize_denotes`).
-/

import SymbolicAlgebra.Proofs.Arithmetic
import SymbolicAlgebra.Proofs.Shapes.Programs

namespace SymbolicAlgebra.Expr

variable {ρ : String → ℚ} {a c e v : Expr ℚ} {name : String}

/-! ## Substitution -/

theorem mulTimes_denotes {n : Nat} (h : mulTimes v n a = .ok c) (hv : DefinedAt ρ v) (ha : DefinedAt ρ a) :
    Denotes ρ c (eval ρ a * eval ρ v ^ n) := by
  rw [mulTimes_eq_foldlM] at h
  obtain ⟨hc, he⟩ := foldlM_mul_denotes h ha fun x hx => List.eq_of_mem_replicate hx ▸ hv
  exact ⟨hc, by rw [he, List.map_replicate, List.prod_replicate]⟩

/-- The power of a value that stands for what its monomial reads under the name. -/
theorem expand_denotes {m : Monomial ℚ} (h : expand m v = .ok c) (hv : DefinedAt ρ v)
    (hm : m.DefinedAt (Function.update ρ m.name (eval ρ v))) :
    Denotes ρ c (m.eval (Function.update ρ m.name (eval ρ v))) := by
  obtain ⟨k, hk, hneg⟩ := hm
  rw [Function.update_self] at hneg
  have heval : m.eval (Function.update ρ m.name (eval ρ v)) = m.quantity * eval ρ v ^ k := by
    rw [Monomial.eval, Function.update_self, hk, Int.floor_intCast]
  rw [heval]
  obtain ⟨-, ⟨h0, rfl⟩ | ⟨n, p, q, hn, hp, hq, hc⟩⟩ := expand_eq_ok h
  · rw [hk, Rational.round_intCast, Rational.magnitude_intCast, Int.natAbs_eq_zero] at h0
    exact ⟨.const _, by simp [h0]⟩
  · rw [hk, Rational.round_intCast] at hn hq
    rw [Rational.magnitude_intCast] at hn
    obtain ⟨hp, hpow⟩ := mulTimes_denotes hp hv hv
    rw [← pow_succ', ← hn] at hpow
    have hq : Denotes ρ q (eval ρ v ^ k) := by
      rcases hq with ⟨hs, rfl⟩ | ⟨hs, hq⟩
      · have hk : ¬ k < 0 := by simpa [Scalar.isNegative] using hs
        refine ⟨hp, ?_⟩
        rw [hpow, ← zpow_natCast, Int.natAbs_of_nonneg (by omega)]
      · have hk : k < 0 := by simpa using hs
        have h0 : eval ρ p ≠ 0 := by
          rw [hpow]
          exact pow_ne_zero _ (hneg hk)
        obtain ⟨hd, he⟩ := div_denotes hq (.const 1) hp (Or.inl h0)
        refine ⟨hd, ?_⟩
        rw [he, hpow, eval_const, one_div, ← zpow_natCast, ← zpow_neg]
        congr 1
        omega
    rcases hc with ⟨ho, rfl⟩ | hc
    · rwa [Rational.nearOne_iff.mp ho, one_mul]
    · obtain ⟨hd, he⟩ := mul_denotes hc (.const m.quantity) hq.1
      exact ⟨hd, by rw [he, hq.2, eval_const]⟩

/-- Putting a value in the place of a name is reading the name as that value. -/
theorem substitute_denotes (h : substitute e name v = .ok c) (hv : DefinedAt ρ v)
    (he : DefinedAt (Function.update ρ name (eval ρ v)) e) :
    Denotes ρ c (eval (Function.update ρ name (eval ρ v)) e) := by
  induction e generalizing c with
  | const w =>
    cases substitute_const.mp h
    exact ⟨.const w, by simp⟩
  | var m =>
    have hm := Everywhere.var_iff.mp he
    rw [eval_var]
    rcases substitute_var h with ⟨rfl, hx⟩ | ⟨hn, rfl⟩
    · exact expand_denotes hx hv hm
    · obtain ⟨k, hk, hneg⟩ := hm
      rw [Function.update_of_ne hn] at hneg
      exact ⟨.var ⟨k, hk, hneg⟩, by rw [eval_var, Monomial.eval, Monomial.eval, Function.update_of_ne hn]⟩
  | sum ts ih =>
    obtain ⟨us, hus, rfl⟩ := substitute_sum.mp h
    refine ⟨.sum (forall_mem_right hus fun t ht u hu => (ih t ht hu (he.terms t ht)).1), ?_⟩
    rw [eval_sum, eval_sum, map_eq_map_of_mem hus fun t ht u hu => (ih t ht hu (he.terms t ht)).2]
  | product fs ih =>
    obtain ⟨gs, hgs, rfl⟩ := substitute_product.mp h
    refine ⟨.product (forall_mem_right hgs fun f hf g hg => (ih f hf hg (he.factors f hf)).1), ?_⟩
    rw [eval_product, eval_product, map_eq_map_of_mem hgs fun f hf g hg => (ih f hf hg (he.factors f hf)).2]
  | matrix g ih =>
    obtain ⟨x, rfl, hx⟩ := he.cell
    obtain ⟨cells, hcells, rfl⟩ := substitute_matrix.mp h
    obtain ⟨y, hy, rfl⟩ := forall₂_singleton_left hcells
    obtain ⟨hd, he⟩ := ih x (List.mem_singleton.mpr rfl) hy hx
    exact ⟨.matrix ⟨rfl, rfl, rfl⟩ (List.forall_mem_singleton.mpr hd), by rw [eval_cell, eval_cell, he]⟩

theorem substitute_gridless (h : substitute e name v = .ok c) (he : Gridless e) (hv : Gridless v) : Gridless c := by
  refine Everywhere.substitute gridless_kept gridless_reciprocal h (Everywhere.mono ?_ ?_ he) hv
  · exact fun _ _ _ => trivial
  · exact fun _ _ _ hg => hg

/-- The substitution lemma. Without grids, where the value stands for a number and the tree does with
    that number for the name, the result stands for the same number as the tree. -/
theorem substitute_sound (he : Gridless e) (hv : Gridless v) (h : substitute e name v = .ok c) :
    Gridless c ∧ ∀ ρ, DefinedAt ρ v → DefinedAt (Function.update ρ name (eval ρ v)) e →
      Denotes ρ c (eval (Function.update ρ name (eval ρ v)) e) :=
  ⟨substitute_gridless h he hv, fun _ => substitute_denotes h⟩

/-- `x y` in the place of `x` in `3 x ^ -2 * (x + 1)`, at `x = y = 2`. -/
theorem substitute_sound_itself :
    let v : Expr ℚ := .product [.var ⟨"x", 1, 1⟩, .var ⟨"y", 1, 1⟩]
    let e : Expr ℚ := .product [.var ⟨"x", 3, -2⟩, .sum [.var ⟨"x", 1, 1⟩, .const 1]]
    ∃ c, substitute e "x" v = .ok c ∧ Denotes (fun _ => 2) c (15 / 16) := by
  intro v e
  have h : substitute e "x" v = .ok (.product
      [.product [.const 3, .var ⟨"x", 1, -2⟩, .var ⟨"y", 1, -2⟩], .sum [v, .const 1]]) := by cbv
  have hmonomial (name : String) (q : ℚ) (k : ℤ) (ρ : String → ℚ) (hρ : ρ name ≠ 0) :
      Monomial.DefinedAt ρ ⟨name, q, k⟩ := ⟨k, rfl, fun _ => hρ⟩
  have hv : DefinedAt (fun _ => 2) v := by
    simpa [v, DefinedAt, assigned] using
      And.intro (hmonomial "x" 1 1 _ two_ne_zero) (hmonomial "y" 1 1 _ two_ne_zero)
  have heval : eval (fun _ => 2) v = 4 := by
    simp [v, Monomial.eval]
    norm_num
  have he : DefinedAt (Function.update (fun _ => 2) "x" 4) e := by
    simpa [e, DefinedAt, assigned] using
      And.intro (hmonomial "x" 3 (-2) _ (by simp)) (hmonomial "x" 1 1 _ (by simp))
  have hvalue : eval (Function.update (fun _ => 2) "x" 4) e = 15 / 16 := by
    have hfloor : ⌊(-2 : ℚ)⌋ = -2 := by norm_num
    simp [e, Monomial.eval, hfloor]
    norm_num
  obtain ⟨-, hdenotes⟩ := substitute_sound (by simp [e, Gridless]) (by simp [v, Gridless]) h
  refine ⟨_, h, ?_⟩
  rw [← hvalue, ← heval]
  exact hdenotes (fun _ => 2) hv (by rwa [heval])

/-! ## Tidying -/

theorem recombine_denotes {fs : List (Expr ℚ)} (h : recombine fs = .ok c) (hf : ∀ f ∈ fs, DefinedAt ρ f) :
    Denotes ρ c (fs.map (eval ρ)).prod := by
  refine ⟨Everywhere.recombine (assigned_kept ρ) h hf, ?_⟩
  rw [← eval_splitCoefficient]
  rcases recombine_eq_ok h with ⟨hz, rfl⟩ | ⟨hr, rfl⟩ | ⟨first, more, p, hr, hp, h⟩
  · rw [Rational.nearZero_iff.mp hz, eval_const, zero_mul]
  · simp [hr]
  · have hs := Everywhere.splitFrom (v := 1) (assigned_kept ρ) hf
    rw [show (splitFrom 1 fs).2 = first :: more from hr] at hs
    obtain ⟨hfirst, hmore⟩ := List.forall_mem_cons.mp hs
    obtain ⟨hp, he⟩ := foldlM_mul_denotes hp hfirst hmore
    rw [(mul_denotes h (.const _) hp).2, he, hr, List.map_cons, List.prod_cons, eval_const]

/-- Tidying keeps the value. -/
theorem normalize_denotes (h : normalize e = .ok c) (he : DefinedAt ρ e) : Denotes ρ c (eval ρ e) := by
  induction e generalizing c with
  | const v =>
    cases normalize_const.mp h
    exact ⟨he, rfl⟩
  | var m =>
    cases normalize_var.mp h
    exact ⟨Everywhere.collapse he, eval_collapse (.var m)⟩
  | sum ts =>
    cases normalize_sum.mp h
    exact ⟨he, rfl⟩
  | product fs ih =>
    obtain ⟨gs, hgs, h⟩ := normalize_product.mp h
    have hd : ∀ g ∈ gs.flatMap factors, DefinedAt ρ g :=
      forall_mem_spliced hgs fun f hf g hg => Everywhere.factors (ih f hf hg (he.factors f hf)).1
    obtain ⟨hc, he'⟩ := recombine_denotes h hd
    refine ⟨hc, ?_⟩
    rw [he', eval_eq_value, Interpretation.value_flatMap_factors, ← eval_eq_value, eval_product,
      map_eq_map_of_mem hgs fun f hf g hg => (ih f hf hg (he.factors f hf)).2]
  | matrix g ih =>
    obtain ⟨x, rfl, hx⟩ := he.cell
    obtain ⟨cells, hcells, rfl⟩ := normalize_matrix.mp h
    obtain ⟨y, hy, rfl⟩ := forall₂_singleton_left hcells
    obtain ⟨hd, he⟩ := ih x (List.mem_singleton.mpr rfl) hy hx
    exact ⟨.matrix ⟨rfl, rfl, rfl⟩ (List.forall_mem_singleton.mpr hd), by rw [eval_cell, eval_cell, he]⟩

end SymbolicAlgebra.Expr
