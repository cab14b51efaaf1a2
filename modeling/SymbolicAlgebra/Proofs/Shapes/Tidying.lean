/-
  SymbolicAlgebra.Proofs.Shapes.Tidying — what tidying does to the shape of a tree.

  Tidying multiplies the factors of a product again, from left to right and with those of the products
  among them in their place. The shape of a product comes from the shapes of its factors as they are
  grouped; both ways lead to one shape (`chained_splice`), as multiplying shapes is associative where
  it is defined (`Shape.times?_assoc`).

  There is one exception. A product that comes out as zero is the number zero, whatever its shape, and
  so are the factors of a product up to some place (`PassesZero`). Otherwise, and also where the zero stands
  for a single number, the result of tidying has the shape of the tree (`shape_normalize`).
-/

import SymbolicAlgebra.Proofs.Tidying

namespace SymbolicAlgebra

/-- Multiplying shapes is associative as far as the products from the left are defined. -/
theorem Shape.times?_assoc {s t u a b r : Shape} (hst : s.times? t = some a) (hau : a.times? u = some r)
    (htu : t.times? u = some b) : s.times? b = some r := by
  rcases times?_eq_some hst with ⟨rfl, rfl⟩ | ⟨rfl, rfl⟩ | ⟨hc, rfl⟩
  · rw [times?_scalar_left, ← htu, hau]
  · rw [times?_scalar_left] at htu
    cases htu
    exact hau
  · rcases times?_eq_some htu with ⟨rfl, rfl⟩ | ⟨rfl, rfl⟩ | ⟨hc', rfl⟩
    · -- A column is multiplied by a single number, and keeps its shape.
      have hs : (⟨s.rows, scalar.cols⟩ : Shape) = s := by rw [← show s.cols = scalar.cols from hc]
      rwa [hs] at hau
    · rw [times?_scalar_right] at hau
      rw [times?_of_cols_eq hc, hau]
    · rw [times?_of_cols_eq (s := ⟨s.rows, t.cols⟩) hc'] at hau
      rw [times?_of_cols_eq (t := ⟨t.rows, u.cols⟩) hc, ← hau]

namespace Expr

variable {α : Type}

/-! ## Factors one after the other -/

/-- From a value of shape `s` on, the factors multiplied one after the other have the shape `t`. -/
inductive Chained : Shape → List (Expr α) → Shape → Prop
  | nil {s : Shape} : Chained s [] s
  | cons {s x u t : Shape} {f : Expr α} {fs : List (Expr α)} : f.shape = .ok x → s.times? x = some u → Chained u fs t →
      Chained s (f :: fs) t

theorem Chained.unique {s t t' : Shape} {fs : List (Expr α)} (h : Chained s fs t) (h' : Chained s fs t') : t' = t := by
  induction h with
  | nil =>
    cases h'
    rfl
  | cons hx hu _ ih =>
    cases h' with
    | cons hx' hu' h' =>
      rw [hx] at hx'
      cases hx'
      rw [hu] at hu'
      cases hu'
      exact ih h'

theorem chained_append {s t : Shape} {fs gs : List (Expr α)} :
    Chained s (fs ++ gs) t ↔ ∃ u, Chained s fs u ∧ Chained u gs t := by
  constructor
  · intro h
    induction fs generalizing s with
    | nil => exact ⟨s, .nil, h⟩
    | cons f fs ih =>
      cases h with
      | cons hx hu h =>
        obtain ⟨v, hv, h⟩ := ih h
        exact ⟨v, .cons hx hu hv, h⟩
  · rintro ⟨u, hfs, hgs⟩
    induction hfs with
    | nil => exact hgs
    | cons hx hu _ ih => exact .cons hx hu (ih hgs)

theorem chained_snoc {s t : Shape} {f : Expr α} {fs : List (Expr α)} :
    Chained s (fs ++ [f]) t ↔ ∃ u x, Chained s fs u ∧ f.shape = .ok x ∧ u.times? x = some t := by
  rw [chained_append]
  constructor
  · rintro ⟨u, hu, hf⟩
    cases hf with
    | cons hx ht hnil =>
      cases hnil
      exact ⟨u, _, hu, hx, ht⟩
  · rintro ⟨u, x, hu, hx, ht⟩
    exact ⟨u, hu, .cons hx ht .nil⟩

/-- The shape of a product comes from its factors one after the other. -/
theorem chained_of_factorsShape {chain : Option Shape} {fs : List (Expr α)} {t : Shape}
    (h : factorsShape chain fs = .ok t) : Chained (chain.getD .scalar) fs t := by
  induction fs generalizing chain with
  | nil =>
    cases h
    exact .nil
  | cons f fs ih =>
    obtain ⟨x, hx, ⟨rfl, hrest⟩ | ⟨-, rfl, hrest⟩ | ⟨-, left, rfl, hc, hrest⟩⟩ := factorsShape_cons h
    · exact .cons hx (Shape.times?_scalar_right _) (ih hrest)
    · exact .cons hx (Shape.times?_scalar_left _) (ih hrest)
    · exact .cons hx (Shape.times?_of_cols_eq hc) (ih hrest)

theorem chained_factors {e : Expr α} {s : Shape} (h : e.shape = .ok s) : Chained .scalar e.factors s := by
  rw [← factorsShape_factors] at h
  have := chained_of_factorsShape h
  exact this

/-- Factors that are multiplied to a value one after the other come to the value times the product of
    the factors, if there is a shape for this product. -/
theorem Chained.group {s u a x t : Shape} {fs : List (Expr α)} (hx : Chained u fs x) (ha : s.times? u = some a)
    (ht : Chained a fs t) : s.times? x = some t := by
  induction hx generalizing a with
  | nil =>
    cases ht
    exact ha
  | cons hf hu _ ih =>
    cases ht with
    | cons hf' hb ht =>
      rw [hf] at hf'
      cases hf'
      exact ih (Shape.times?_assoc ha hb hu) ht

/-- Putting the factors of products in their place does not change what the factors come to. -/
theorem chained_splice {s t t' : Shape} {gs : List (Expr α)} (h : Chained s gs t) (h' : Chained s (gs.flatMap factors) t') :
    t' = t := by
  induction h with
  | nil =>
    cases h'
    rfl
  | @cons s x u t g gs hx hu _ ih =>
    rw [List.flatMap_cons] at h'
    obtain ⟨v, hv, h'⟩ := chained_append.mp h'
    have huv := (chained_factors hx).group (Shape.times?_scalar_right s) hv
    rw [hu] at huv
    cases huv
    exact ih h'

section
variable [Scalar α]

/-- Numbers among the factors do not matter. -/
theorem chained_of_splitFrom {s t : Shape} {v : α} {fs : List (Expr α)} (h : Chained s (splitFrom v fs).2 t) :
    Chained s fs t := by
  induction fs generalizing s v with
  | nil => exact h
  | cons f fs ih =>
    cases f with
    | const w => exact .cons rfl (Shape.times?_scalar_right s) (ih h)
    | var m =>
      cases h with
      | cons hx hu h =>
        cases hx
        exact .cons rfl hu (ih h)
    | _ =>
      cases h with
      | cons hx hu h => exact .cons hx hu (ih h)

/-! ## Zeros -/

/-- The tidied factors are multiplied from the left: those that are done come to the value, the others are
    still to come. Numbers are taken out before, and nothing is multiplied if they come to zero. -/
inductive Partway (gs : List (Expr α)) : List (Expr α) → Expr α → List (Expr α) → Prop
  | first {f : Expr α} {rest : List (Expr α)} : Scalar.nearZero (splitCoefficient gs).1 = false →
      (splitCoefficient gs).2 = f :: rest → Partway gs [f] f rest
  | next {done rest : List (Expr α)} {p f q : Expr α} : Partway gs done p (f :: rest) → mul p f = .ok q →
      Partway gs (done ++ [f]) q rest

/-- Tidying the tree comes past a zero that is not a single number by its shape: a product in it comes out
    as zero, or its factors up to some place do. -/
inductive PassesZero : Expr α → Prop
  | inside {fs : List (Expr α)} {f : Expr α} : f ∈ fs → PassesZero f → PassesZero (.product fs)
  | whole {fs : List (Expr α)} {c : Expr α} : normalize (.product fs) = .ok c → c.NearZero →
      (Expr.product fs).shape ≠ .ok .scalar → PassesZero (.product fs)
  | start {fs gs done rest : List (Expr α)} {p : Expr α} : normalizeFactors fs = .ok gs → Partway gs done p rest →
      p.NearZero → ¬ Chained .scalar done .scalar → PassesZero (.product fs)

theorem PassesZero.kind {e : Expr α} (h : PassesZero e) : e.kind = .product := by cases h <;> rfl

/-- A number or a grid times a grid is a grid. -/
theorem kind_mul_grid {a b c : Expr α} (h : mul a b = .ok c) (ha : a.kind = .constant ∨ a.kind = .matrix)
    (hb : b.kind = .matrix) : c.kind = .matrix := by
  obtain ⟨k, rfl⟩ := eq_matrix_of_kind hb
  have hcase := mul_cases (R := fun x y z => mul x y = .ok z) (fun _ _ _ _ hz => hz) h
  cases hcase with
  | grids => rfl
  | gridScalar => rfl
  | scalarGrid => rfl
  | besideGrid hk => exact absurd hb hk
  | gridBeside hk hs hne =>
    cases a with
    | const v =>
      cases hs
      exact absurd rfl hne
    | matrix g => exact absurd rfl hk
    | _ => rcases ha with ha | ha <;> cases ha
  | number hk => exact absurd hb hk
  | product hk => rcases hk with hk | hk <;> cases hk
  | intoLeft hk => exact absurd hb hk

theorem splitFrom_grids {v : α} {fs : List (Expr α)} (h : ∀ f ∈ fs, f.kind = .matrix) : splitFrom v fs = (v, fs) := by
  induction fs with
  | nil => rfl
  | cons f fs ih =>
    obtain ⟨hf, hfs⟩ := List.forall_mem_cons.mp h
    obtain ⟨g, rfl⟩ := eq_matrix_of_kind hf
    simp [splitFrom, ih hfs]

theorem normalizeFactors_grids {fs gs : List (Expr α)} (hgs : normalizeFactors fs = .ok gs)
    (h : ∀ f ∈ fs, f.kind = .matrix) : ∀ g ∈ gs, g.kind = .matrix := by
  obtain ⟨hs, hhs, rfl⟩ := normalizeFactors_eq_ok.mp hgs
  refine forall_mem_spliced hhs fun f hf c hc => ?_
  obtain ⟨k, rfl⟩ := eq_matrix_of_kind (h f hf)
  obtain ⟨cells, -, rfl⟩ := normalize_matrix.mp hc
  exact List.forall_mem_singleton.mpr rfl

/-- From the first factor on there are only grids. -/
theorem kind_of_partway {gs done rest : List (Expr α)} {p : Expr α} (h : Partway gs done p rest)
    (hgs : ∀ g ∈ gs, g.kind = .matrix) : p.kind = .matrix ∧ ∀ f ∈ rest, f.kind = .matrix := by
  induction h with
  | first _ hr =>
    rw [splitCoefficient, splitFrom_grids hgs] at hr
    subst hr
    exact List.forall_mem_cons.mp hgs
  | next _ hmul ih =>
    obtain ⟨hp, hrest⟩ := ih
    obtain ⟨hf, hrest⟩ := List.forall_mem_cons.mp hrest
    exact ⟨kind_mul_grid hmul (Or.inr hp) hf, hrest⟩

/-- The factors that are left are multiplied to a value that comes of them. -/
theorem Partway.foldlM {gs done rest : List (Expr α)} {p q : Expr α} (h : Partway gs done p rest)
    (hq : rest.foldlM mul p = .ok q) : Partway gs (done ++ rest) q [] := by
  induction rest generalizing done p with
  | nil =>
    cases pure_eq_ok.mp hq
    rwa [List.append_nil]
  | cons f fs ih =>
    obtain ⟨p', hp', hq⟩ := foldlM_cons_eq_ok.mp hq
    rw [List.append_cons]
    exact ih (h.next hp') hq

/-- A product of grids does not come past a zero: it is a grid, also when all of its cells are zero. -/
theorem not_passesZero_of_grids (one : Scalar.nearZero (1 : α) = false) {fs : List (Expr α)}
    (h : ∀ f ∈ fs, f.kind = .matrix) : ¬ PassesZero (.product fs) := by
  intro hz
  cases hz with
  | inside hf hz => exact absurd ((h _ hf).symm.trans hz.kind) (by decide)
  | @whole _ c hc hz =>
    unfold normalize at hc
    obtain ⟨gs, hgs, hc⟩ := bind_eq_ok.mp hc
    have hgrids := normalizeFactors_grids hgs h
    have hsplit : splitCoefficient gs = (1, gs) := splitFrom_grids hgrids
    rcases recombine_eq_ok hc with ⟨h0, -⟩ | ⟨-, rfl⟩ | ⟨first, more, p, hr, hp, hc⟩
    · rw [hsplit, one] at h0
      cases h0
    · obtain ⟨v, hv, hz⟩ := hz
      cases hv
      rw [hsplit, one] at hz
      cases hz
    · have hone : Scalar.nearZero (splitCoefficient gs).1 = false := by rw [hsplit, one]
      have hp := (kind_of_partway ((Partway.first hone hr).foldlM hp) hgrids).1
      exact absurd ((kind_mul_grid hc (Or.inl rfl) hp).symm.trans hz.kind) (by decide)
  | start hgs hp hz =>
    have hp := (kind_of_partway hp (normalizeFactors_grids hgs h)).1
    exact absurd (hp.symm.trans hz.kind) (by decide)

variable (zero : Scalar.nearZero (0 : α) = true)
include zero

/-- Multiplying by one value after the other makes a chain of their shapes, unless it comes past a zero. -/
theorem foldlM_mul_chained {gs done rest : List (Expr α)} {p c : Expr α} {s : Shape} (hp : Partway gs done p rest)
    (h : rest.foldlM mul p = .ok c) (hs : p.shape = .ok s) (hdone : Chained .scalar done s)
    (hrest : ∀ f ∈ rest, ∃ x, f.shape = .ok x) :
    (∃ t, c.shape = .ok t ∧ Chained s rest t) ∨
      ∃ done rest z, Partway gs done z rest ∧ z.NearZero ∧ ¬ Chained .scalar done .scalar := by
  induction rest generalizing done p s with
  | nil =>
    cases pure_eq_ok.mp h
    exact Or.inl ⟨s, hs, .nil⟩
  | cons f fs ih =>
    obtain ⟨⟨x, hx⟩, hfs⟩ := List.forall_mem_cons.mp hrest
    obtain ⟨q, hq, h⟩ := foldlM_cons_eq_ok.mp h
    have hnext := hp.next hq
    -- A zero is of the shape that the factors chain to, if that is the one of single numbers.
    have hshape : (∃ u, s.times? x = some u ∧ q.shape = .ok u) ∨ q.NearZero ∧ ¬ Chained .scalar (done ++ [f]) .scalar := by
      rcases (mul_shapes zero hq).2 s x hs hx with hz | hu
      · by_cases hscalar : Chained .scalar (done ++ [f]) .scalar
        · obtain ⟨s', x', hs', hx', hu⟩ := chained_snoc.mp hscalar
          cases hdone.unique hs'
          rw [hx] at hx'
          cases hx'
          obtain ⟨v, rfl, -⟩ := hz
          exact Or.inl ⟨.scalar, hu, rfl⟩
        · exact Or.inr ⟨hz, hscalar⟩
      · exact Or.inl hu
    rcases hshape with ⟨u, hu, hqu⟩ | hz
    · exact (ih hnext h hqu (chained_snoc.mpr ⟨s, x, hdone, hx, hu⟩) hfs).imp_left fun ⟨t, ht, hc⟩ => ⟨t, ht, .cons hx hu hc⟩
    · exact Or.inr ⟨_, _, _, hnext, hz⟩

/-- The factors of a product that is tidied come to the shape that they chain to. -/
theorem recombine_chained {gs : List (Expr α)} {c : Expr α} (h : recombine gs = .ok c)
    (hgs : ∀ g ∈ gs, ∃ x, g.shape = .ok x) :
    (∃ t, c.shape = .ok t ∧ Chained .scalar gs t) ∨ c.NearZero ∨
      ∃ done rest z, Partway gs done z rest ∧ z.NearZero ∧ ¬ Chained .scalar done .scalar := by
  cases h0 : Scalar.nearZero (splitCoefficient gs).1 with
  | true =>
    rw [recombine_zero h0] at h
    cases h
    exact Or.inr (Or.inl ⟨0, rfl, zero⟩)
  | false =>
    rcases recombine_eq_ok h with ⟨hz, -⟩ | ⟨hr, rfl⟩ | ⟨first, more, p, hr, hp, h⟩
    · rw [h0] at hz
      cases hz
    · refine Or.inl ⟨.scalar, rfl, chained_of_splitFrom (v := 1) ?_⟩
      rw [show (splitFrom 1 gs).2 = [] from hr]
      exact .nil
    · have hs : ∀ f ∈ (splitFrom 1 gs).2, ∃ x, f.shape = .ok x := forall_splitFrom (fun m _ => ⟨.scalar, rfl⟩) hgs
      rw [show (splitFrom 1 gs).2 = first :: more from hr] at hs
      obtain ⟨⟨s, hfirst⟩, hmore⟩ := List.forall_mem_cons.mp hs
      have hdone : Chained .scalar [first] s := .cons hfirst (Shape.times?_scalar_left s) .nil
      rcases foldlM_mul_chained zero (.first h0 hr) hp hfirst hdone hmore with ⟨t, ht, hc⟩ | hz
      · rcases (mul_shapes zero h).2 .scalar t rfl ht with hz | ⟨u, hu, hcu⟩
        · exact Or.inr (Or.inl hz)
        · rw [Shape.times?_scalar_left] at hu
          cases hu
          refine Or.inl ⟨t, hcu, chained_of_splitFrom (v := 1) ?_⟩
          rw [show (splitFrom 1 gs).2 = first :: more from hr]
          exact .cons hfirst (Shape.times?_scalar_left s) hc
      · exact Or.inr (Or.inr hz)

/-- The result of tidying has the shape of the tree, unless a product of another shape than that of single
    numbers comes out as zero on the way. -/
theorem shape_normalize {e c : Expr α} (h : normalize e = .ok c) (he : Shaped e) :
    c.shape = e.shape ∨ PassesZero e := by
  induction e generalizing c with
  | const v =>
    cases normalize_const.mp h
    exact Or.inl rfl
  | var m =>
    cases normalize_var.mp h
    exact Or.inl (shape_ofMonomial m)
  | sum ts =>
    cases normalize_sum.mp h
    exact Or.inl rfl
  | product fs ih =>
    obtain ⟨gs, hgs, hc⟩ := normalize_product.mp h
    -- If no factor comes past a zero, all of them keep their shapes and chain as they did.
    by_cases hz : ∃ f ∈ fs, PassesZero f
    · obtain ⟨f, hf, hz⟩ := hz
      exact Or.inr (.inside hf hz)
    · have hshape : gs.map shape = fs.map shape := map_eq_map_of_mem hgs fun f hf g hg =>
        (ih f hf hg (he.children f hf)).resolve_right fun hz' => hz ⟨f, hf, hz'⟩
      have hflat : ∀ g ∈ gs.flatMap factors, Shaped g :=
        forall_mem_spliced hgs fun f hf g hg => (normalize_shaped zero hg (he.children f hf)).factors
      rcases recombine_chained zero hc (fun g hg => (hflat g hg).shape) with ⟨t, ht, hchain⟩ | hz | ⟨done, rest, z, hmul, hz, hne⟩
      · obtain ⟨s, hs⟩ := he.shape
        have hgroups : (Expr.product gs).shape = .ok s := by
          rw [← hs, shape, shape, factorsShape_congr hshape]
        rw [chained_splice (chained_factors hgroups) hchain] at ht
        exact Or.inl (by rw [ht, hs])
      · by_cases hs : (Expr.product fs).shape = .ok .scalar
        · obtain ⟨v, rfl, -⟩ := hz
          exact Or.inl hs.symm
        · exact Or.inr (.whole h hz hs)
      · exact Or.inr (.start (normalizeFactors_eq_ok.mpr ⟨gs, hgs, rfl⟩) hmul hz hne)
  | matrix g =>
    obtain ⟨cells, -, rfl⟩ := normalize_matrix.mp h
    exact Or.inl rfl

end

end Expr

end SymbolicAlgebra
