/-
  SymbolicAlgebra.Proofs.Matrices.Substitution — putting numbers and the matrix in the place of names.

  A value in the place of a name leaves the sort of a tree and its reading as they are, if it is read
  as the name is. That is so when a number is put in for a name of that number (`substitute_by_number`),
  and when the matrix is put in for its name (`substitute_by_matrix`); then a tree in which the name
  stands for the matrix becomes one in which grids do. Tidying changes neither (`normalize_matrices`).
-/

import SymbolicAlgebra.Proofs.FreeNames
import SymbolicAlgebra.Proofs.Matrices.Multiplication
import SymbolicAlgebra.Proofs.Substitution

namespace SymbolicAlgebra.Expr

variable {o o' : Option String} {s : Shape} {ρ : String → ℚ} {N : Nat} {M : Matrix (Fin N) (Fin N) ℚ}
  {a c e v : Expr ℚ} {name : String}

/-! ## From the leaves to the tree -/

/-- What becomes of a tree is read as the tree, if this is so when it is a number and when it is a
    matrix. -/
theorem AsSorted.reads (hN : s.Fits N) (h : AsSorted o s ρ e)
    (number : AsNumber o s ρ e → AsNumber o' s ρ c ∧ eval ρ c = eval ρ e)
    (matrix : AsMatrix o s ρ e → AsMatrix o' s ρ c ∧ (matrices o' ρ M).value c = (matrices o ρ M).value e) :
    Reads o' s ρ M (IsMatrix o s e) c ((matrices o ρ M).value e) := by
  by_cases hm : IsMatrix o s e
  · obtain ⟨hc, hv⟩ := matrix ⟨hm, h.2⟩
    exact ⟨hc.asSorted, fun _ => hc.1, hv⟩
  · have hn := h.cases.resolve_right fun h => hm h.1
    obtain ⟨hc, hv⟩ := number hn
    exact ⟨hc.asSorted, fun h => absurd h hm, by rw [hc.value hN, hn.value hN, hv]⟩

/-- A substitution that keeps the readings of numbers and of the powers of the matrix keeps those of
    all matrices. -/
theorem substitute_matrices (hN : s.Fits N) (ho : o = none → o' = none)
    (number : ∀ e c, substitute e name v = .ok c → AsNumber o s ρ e → AsNumber o' s ρ c ∧ eval ρ c = eval ρ e)
    (monomial : ∀ m c, substitute (.var m) name v = .ok c → AsMatrix o s ρ (.var m) →
      AsMatrix o' s ρ c ∧ (matrices o' ρ M).value c = (matrices o ρ M).value (.var m))
    (h : substitute e name v = .ok c) (he : AsMatrix o s ρ e) :
    AsMatrix o' s ρ c ∧ (matrices o' ρ M).value c = (matrices o ρ M).value e := by
  induction e generalizing c with
  | const w =>
    cases substitute_const.mp h
    exact ⟨⟨isMatrix_const.mpr (isMatrix_const.mp he.1), .const w⟩, by simp⟩
  | var m => exact monomial m c h he
  | sum ts ih =>
    obtain ⟨us, hus, rfl⟩ := substitute_sum.mp h
    have hterm : ∀ t ∈ ts, ∀ u, substitute t name v = .ok u →
        AsMatrix o' s ρ u ∧ (matrices o' ρ M).value u = (matrices o ρ M).value t :=
      fun t ht u hu => ih t ht hu (he.terms t ht)
    have hall := forall_mem_right hus fun t ht u hu => (hterm t ht u hu).1
    refine ⟨⟨isMatrix_sum.mpr fun u hu => (hall u hu).1, .sum fun u hu => (hall u hu).2⟩, ?_⟩
    rw [Interpretation.value_sum, Interpretation.value_sum, map_eq_map_of_mem hus fun t ht u hu => (hterm t ht u hu).2]
  | product fs ih =>
    obtain ⟨gs, hgs, rfl⟩ := substitute_product.mp h
    obtain ⟨hfs, f, hf, hm⟩ := he.factors
    have hfactor : ∀ f ∈ fs, ∀ g, substitute f name v = .ok g →
        Reads o' s ρ M (IsMatrix o s f) g ((matrices o ρ M).value f) :=
      fun f hf g hg => (hfs f hf).reads hN (number f g hg) (ih f hf hg)
    refine ⟨.ofFactors (forall_mem_right hgs fun f hf g hg => (hfactor f hf g hg).1) ?_, ?_⟩
    · -- The factor that is a matrix stays one.
      obtain ⟨g, hg, hfg⟩ := exists_mem_right hgs hf
      exact ⟨g, hg, (hfactor f hf g hfg).2.1 hm⟩
    · rw [Interpretation.value_product, Interpretation.value_product,
        map_eq_map_of_mem hgs fun f hf g hg => (hfactor f hf g hg).2.2]
  | matrix g =>
    obtain ⟨cells, hcells, rfl⟩ := (Expr.substitute_matrix (g := g)).mp h
    obtain rfl : o = none := (isMatrix_matrix.mp he.1).1
    obtain rfl : o' = none := ho rfl
    obtain ⟨hc, hv⟩ := he.map (M := M) (f := fun w => w) hcells fun x y hx hy => number x y hy hx
    exact ⟨hc, by rw [hv]; simp [matrices, Grid.map, Function.comp_def]⟩

/-! ## Numbers -/

/-- A number in the place of a name of that number. -/
theorem substitute_numbers (h : substitute e name v = .ok c) (hv : AsNumber o s ρ v) (hname : eval ρ v = ρ name)
    (he : AsNumber o s ρ e) : AsNumber o s ρ c ∧ eval ρ c = eval ρ e := by
  have hρ : Function.update ρ name (eval ρ v) = ρ := by rw [hname, Function.update_eq_self]
  obtain ⟨hd, hc⟩ := substitute_denotes h hv.2 (by rw [hρ]; exact he.2)
  rw [hρ] at hc
  have hplain : Everywhere ⟨fun m => m.name ≠ name → (plain o s).monomial m, (plain o s).grid⟩ e :=
    Everywhere.mono (P := plain o s) (Q := ⟨fun m => m.name ≠ name → (plain o s).monomial m, (plain o s).grid⟩)
      (fun _ hm _ => hm) (fun _ _ _ hg => hg) he.1
  exact ⟨⟨Everywhere.substitute (plain_kept o s) (plain_reciprocal o s) h hplain hv.1, hd⟩, hc⟩

theorem substitute_by_number (hN : s.Fits N) (h : substitute e name v = .ok c) (hv : AsNumber o s ρ v)
    (hname : eval ρ v = ρ name) (hne : o ≠ some name) (he : AsMatrix o s ρ e) :
    AsMatrix o s ρ c ∧ (matrices o ρ M).value c = (matrices o ρ M).value e := by
  refine substitute_matrices hN id (fun e c h he => substitute_numbers h hv hname he) (fun m c h hm => ?_) h he
  rcases substitute_var h with ⟨rfl, -⟩ | ⟨-, rfl⟩
  · exact absurd (isMatrix_var.mp hm.1).1 hne
  · exact ⟨hm, rfl⟩

/-! ## The matrix -/

/-- A number does not mention the matrix, and is one where there is no name for matrices. -/
theorem AsNumber.without_name (h : AsNumber (some name) s ρ e) : AsNumber none s ρ e :=
  ⟨Everywhere.mono (P := plain (some name) s) (Q := plain none s) (fun _ _ => by simp [plain])
    (fun _ _ _ hg => absurd hg.1 (by simp)) h.1, h.2⟩

theorem AsNumber.not_mem (h : AsNumber (some name) s ρ e) : name ∉ e.freeNames := by
  have hn : Everywhere (named (name ≠ ·)) e :=
    Everywhere.mono (P := plain (some name) s) (Q := named (name ≠ ·)) (fun m hm he => hm (congrArg some he))
      (fun _ _ _ _ => trivial) h.1
  exact fun hmem => everywhere_named.mp hn name hmem rfl

theorem mulTimes_matrices (hN : s.Fits N) {n : Nat} (h : mulTimes v n a = .ok c) (hv : AsMatrix o s ρ v) (ha : AsMatrix o s ρ a) :
    AsMatrix o s ρ c ∧ (matrices o ρ M).value c = (matrices o ρ M).value a * (matrices o ρ M).value v ^ n := by
  rw [mulTimes_eq_foldlM] at h
  obtain ⟨hc, hm, hv⟩ := foldlM_mul_sorted (M := M) hN h ha.asSorted fun x hx => List.eq_of_mem_replicate hx ▸ hv.asSorted
  exact ⟨⟨hm (Or.inl ha.1), hc.2⟩, by rw [hv, List.map_replicate, List.prod_replicate]⟩

/-- A power of the name becomes that power of the matrix. -/
theorem expand_matrix (hN : s.Fits N) {m : Monomial ℚ} (h : expand m v = .ok c) (hv : AsMatrix none s ρ v)
    (hm : IsMatrix (some m.name) s (.var m)) : AsMatrix none s ρ c ∧ (matrices none ρ M).value c =
      (matrices (some m.name) ρ ((matrices none ρ M).value v)).value (.var m) := by
  obtain ⟨-, k, hk, hexp⟩ := isMatrix_var.mp hm
  have hexp : m.exponent = ((k : ℤ) : ℚ) := by rw [hexp, Int.cast_natCast]
  have hvar : ∀ X : Matrix (Fin N) (Fin N) ℚ, (matrices (some m.name) ρ X).value (.var m) = m.quantity • X ^ k := by
    intro X
    rw [Interpretation.value_var, Interpretation.monomial, hexp, Int.floor_intCast]
    exact congrArg _ (if_pos rfl)
  rw [hvar]
  obtain ⟨-, ⟨h0, -⟩ | ⟨n, p, q, hn, hp, hq, hc⟩⟩ := expand_eq_ok h
  · rw [hexp, Rational.round_intCast, Rational.magnitude_intCast] at h0
    omega
  · rw [hexp, Rational.round_intCast] at hn hq
    rw [Rational.magnitude_intCast] at hn
    obtain ⟨hp, hpow⟩ := mulTimes_matrices (M := M) hN hp hv hv
    rw [← pow_succ', show n + 1 = k by omega] at hpow
    -- The exponent is not negative, so there is no division.
    obtain rfl : q = p := by
      rcases hq with ⟨-, hq⟩ | ⟨hs, -⟩
      · exact hq
      · have : (k : ℤ) < 0 := Int.cast_lt_zero.mp (Rational.isNegative_iff.mp hs)
        omega
    rcases hc with ⟨ho, rfl⟩ | hc
    · exact ⟨hp, by rw [hpow, Rational.nearOne_iff.mp ho, one_smul]⟩
    · obtain ⟨hc, he⟩ := mul_matrices (M := M) hN hc (AsNumber.asSorted ⟨.const _, .const _⟩) hp.asSorted (Or.inr hp.1)
      exact ⟨hc, by rw [he, hpow, Interpretation.value_const, smul_one_mul]⟩

/-- The matrix in the place of its name. -/
theorem substitute_by_matrix (hN : s.Fits N) (h : substitute e name v = .ok c) (hv : AsMatrix none s ρ v)
    (hvalue : (matrices none ρ M).value v = M) (he : AsMatrix (some name) s ρ e) :
    AsMatrix none s ρ c ∧ (matrices none ρ M).value c = (matrices (some name) ρ M).value e := by
  refine substitute_matrices hN (by simp) (fun e c h he => ?_) (fun m c h hm => ?_) h he
  · cases (substitute_of_not_mem he.not_mem).symm.trans h
    exact ⟨he.without_name, rfl⟩
  · obtain rfl : name = m.name := Option.some.inj (isMatrix_var.mp hm.1).1
    rcases substitute_var h with ⟨-, h⟩ | ⟨hne, -⟩
    · have := expand_matrix (M := M) hN h hv hm.1
      rwa [hvalue] at this
    · exact absurd rfl hne

/-! ## Tidying -/

theorem recombine_matrices (hN : s.Fits N) {fs : List (Expr ℚ)} (h : recombine fs = .ok c) (hfs : ∀ f ∈ fs, AsSorted o s ρ f)
    (hm : ∃ f ∈ fs, IsMatrix o s f) : AsMatrix o s ρ c ∧ (matrices o ρ M).value c = (fs.map (matrices o ρ M).value).prod := by
  rw [← Interpretation.value_splitCoefficient]
  have hm := isMatrix_splitFrom (v := 1) hm
  rcases recombine_eq_ok h with ⟨hz, rfl⟩ | ⟨hr, rfl⟩ | ⟨first, more, p, hr, hp, h⟩
  · exact ⟨asMatrix_zero, by simp [Rational.nearZero_iff.mp hz]⟩
  · rw [splitCoefficient] at hr
    have h0 : (splitFrom 1 fs).1 = 0 := hm.resolve_right (by simp [hr])
    rw [splitCoefficient, h0]
    exact ⟨asMatrix_zero, by simp⟩
  · have hsorted : ∀ f ∈ (splitFrom 1 fs).2, AsSorted o s ρ f := fun f hf =>
      ⟨isSorted_splitFrom (fun f hf => (hfs f hf).1) f hf, Everywhere.splitFrom (defined_kept ρ) (fun f hf => (hfs f hf).2) f hf⟩
    rw [show (splitFrom 1 fs).2 = first :: more from hr] at hsorted hm
    obtain ⟨hfirst, hmore⟩ := List.forall_mem_cons.mp hsorted
    obtain ⟨hp, hpm, hpv⟩ := foldlM_mul_sorted (M := M) hN hp hfirst hmore
    have hm : IsMatrix o s (.const (splitCoefficient fs).1) ∨ IsMatrix o s p := by
      rcases hm with h0 | ⟨f, hf, hm⟩
      · exact Or.inl (isMatrix_const.mpr h0)
      · refine Or.inr (hpm ?_)
        rcases List.mem_cons.mp hf with rfl | hf
        · exact Or.inl hm
        · exact Or.inr ⟨f, hf, hm⟩
    obtain ⟨hc, hv⟩ := mul_matrices (M := M) hN h (AsNumber.asSorted ⟨.const _, .const _⟩) hp hm
    exact ⟨hc, by rw [hv, hpv, hr, List.map_cons, List.prod_cons, Interpretation.value_const, smul_one_mul]⟩

theorem normalize_numbers (h : normalize e = .ok c) (he : AsNumber o s ρ e) : AsNumber o s ρ c ∧ eval ρ c = eval ρ e := by
  obtain ⟨hd, hc⟩ := normalize_denotes h he.2
  exact ⟨⟨Everywhere.normalize (plain_kept o s) h he.1, hd⟩, hc⟩

theorem normalize_matrices (hN : s.Fits N) (h : normalize e = .ok c) (he : AsMatrix o s ρ e) :
    AsMatrix o s ρ c ∧ (matrices o ρ M).value c = (matrices o ρ M).value e := by
  induction e generalizing c with
  | const v =>
    cases normalize_const.mp h
    exact ⟨he, rfl⟩
  | var m =>
    cases normalize_var.mp h
    exact ⟨he.collapse, Interpretation.value_collapse _ (.var m)⟩
  | sum ts =>
    cases normalize_sum.mp h
    exact ⟨he, rfl⟩
  | product fs ih =>
    obtain ⟨gs, hgs, h⟩ := normalize_product.mp h
    obtain ⟨hfs, f, hf, hm⟩ := he.factors
    have hfactor : ∀ f ∈ fs, ∀ g, normalize f = .ok g → Reads o s ρ M (IsMatrix o s f) g ((matrices o ρ M).value f) :=
      fun f hf g hg => (hfs f hf).reads hN (normalize_numbers hg) (ih f hf hg)
    have hall : ∀ f ∈ gs.flatMap factors, AsSorted o s ρ f := forall_mem_spliced hgs fun f hf g hg x hx => by
      obtain ⟨hsorted, hdefined⟩ := (hfactor f hf g hg).1
      exact ⟨hsorted.factors x hx, Everywhere.factors hdefined x hx⟩
    have hsome : ∃ f ∈ gs.flatMap factors, IsMatrix o s f := by
      obtain ⟨g, hg, hfg⟩ := exists_mem_right hgs hf
      obtain ⟨x, hx, hm⟩ := ((hfactor f hf g hfg).2.1 hm).factors
      exact ⟨x, List.mem_flatMap.mpr ⟨g, hg, hx⟩, hm⟩
    obtain ⟨hc, hv⟩ := recombine_matrices (M := M) hN h hall hsome
    refine ⟨hc, ?_⟩
    rw [hv, Interpretation.value_flatMap_factors, Interpretation.value_product,
      map_eq_map_of_mem hgs fun f hf g hg => (hfactor f hf g hg).2.2]
  | matrix g =>
    obtain ⟨cells, hcells, rfl⟩ := normalize_matrix.mp h
    obtain ⟨hc, hv⟩ := he.map (M := M) (f := fun w => w) hcells fun x y hx hy => normalize_numbers hy hx
    exact ⟨hc, by rw [hv]; simp [matrices, Grid.map, Function.comp_def]⟩

end SymbolicAlgebra.Expr
