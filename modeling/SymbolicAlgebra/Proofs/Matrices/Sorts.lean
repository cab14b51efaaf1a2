/-
  SymbolicAlgebra.Proofs.Matrices.Sorts — trees for numbers and trees for matrices of one shape.

  While a program is read, a name that will stand for a matrix is a monomial like any other, so
  nothing in a tree tells the two apart. Here they are: given the name `o` that stands for a matrix,
  if there is one, `IsNumber` and `IsMatrix` say that a tree is put together as a number or as a
  matrix of shape `s` is. The powers of the name are matrices; without such a name the grids are. The
  number zero may stand for the matrix of zeros.

  Most of what a shape says about a tree follows from its sort: a number is a single number
  (`IsNumber.shape`), and a matrix that has the shape of a single number is a number as well, and zero
  unless all matrices have that shape (`IsMatrix.isNumber`, `IsMatrix.eval_eq_zero`).
-/

import SymbolicAlgebra.Proofs.Matrices.Grids
import SymbolicAlgebra.Proofs.Evaluation
import SymbolicAlgebra.Proofs.Shapes.Chains

namespace SymbolicAlgebra.Expr

/-! ## Products of one shape -/

section
variable {α : Type}

/-- Factors that are single numbers or have one shape: the product is a single number like all of
    them, or has that shape. -/
theorem factorsShape_cases {s t : Shape} {chain : Option Shape} {fs : List (Expr α)}
    (hf : ∀ f ∈ fs, ∀ x, f.shape = .ok x → x = .scalar ∨ x = s) (hc : chain = none ∨ chain = some s)
    (h : factorsShape chain fs = .ok t) :
    (t = chain.getD .scalar ∧ ∀ f ∈ fs, f.shape = .ok .scalar) ∨ t = s := by
  induction fs generalizing chain with
  | nil =>
    simp only [factorsShape, Except.ok.injEq] at h
    exact Or.inl ⟨h.symm, List.forall_mem_nil _⟩
  | cons f fs ih =>
    obtain ⟨hf, hfs⟩ := List.forall_mem_cons.mp hf
    have done : factorsShape (some s) fs = .ok t → t = s := by
      intro h
      rcases ih hfs (Or.inr rfl) h with ⟨e, -⟩ | e
      · exact e
      · exact e
    obtain ⟨x, hx, ⟨rfl, hrest⟩ | ⟨hne, rfl, hrest⟩ | ⟨hne, left, rfl, -, hrest⟩⟩ := factorsShape_cons h
    · rcases ih hfs hc hrest with ⟨e, hall⟩ | e
      · exact Or.inl ⟨e, List.forall_mem_cons.mpr ⟨hx, hall⟩⟩
      · exact Or.inr e
    · rw [(hf x hx).resolve_left hne] at hrest
      exact Or.inr (done hrest)
    · obtain rfl : left = s := by simpa using hc
      rw [(hf x hx).resolve_left hne] at hrest
      exact Or.inr (done hrest)

end

/-! ## Sorts -/

section
variable (o : Option String) (s : Shape)

/-- The matrix is not mentioned, and there are no grids, unless all of them have one cell. -/
def plain : Condition ℚ :=
  ⟨fun m => o ≠ some m.name, fun r c k => o = none ∧ s = .scalar ∧ r = 1 ∧ c = 1 ∧ k = 1⟩

def IsNumber (e : Expr ℚ) : Prop := Everywhere (plain o s) e

mutual

def IsMatrix : Expr ℚ → Prop
  | .const v => v = 0
  | .var m => o = some m.name ∧ ∃ k : ℕ, 0 < k ∧ m.exponent = k
  | .sum ts => AllMatrices ts
  | .product fs => AllSorted fs ∧ SomeMatrix fs
  | .matrix g => o = none ∧ g.shape = s ∧ g.Filled ∧ ∀ c ∈ g.cells, IsNumber o s c

def AllMatrices : List (Expr ℚ) → Prop
  | [] => True
  | t :: ts => IsMatrix t ∧ AllMatrices ts

def AllSorted : List (Expr ℚ) → Prop
  | [] => True
  | f :: fs => (IsNumber o s f ∨ IsMatrix f) ∧ AllSorted fs

def SomeMatrix : List (Expr ℚ) → Prop
  | [] => False
  | f :: fs => IsMatrix f ∨ SomeMatrix fs

end

/-- A number or a matrix. -/
def IsSorted (e : Expr ℚ) : Prop := IsNumber o s e ∨ IsMatrix o s e

end

variable {o : Option String} {s : Shape}

@[simp] theorem isMatrix_const {v : ℚ} : IsMatrix o s (.const v) ↔ v = 0 := by rw [IsMatrix]

@[simp] theorem isMatrix_var {m : Monomial ℚ} :
    IsMatrix o s (.var m) ↔ o = some m.name ∧ ∃ k : ℕ, 0 < k ∧ m.exponent = k := by rw [IsMatrix]

@[simp] theorem isMatrix_sum {ts : List (Expr ℚ)} : IsMatrix o s (.sum ts) ↔ ∀ t ∈ ts, IsMatrix o s t := by
  rw [IsMatrix]
  induction ts with
  | nil => simp [AllMatrices]
  | cons t ts ih => simp [AllMatrices, ih]

theorem allSorted_iff {fs : List (Expr ℚ)} : AllSorted o s fs ↔ ∀ f ∈ fs, IsSorted o s f := by
  induction fs with
  | nil => simp [AllSorted]
  | cons f fs ih => simp [AllSorted, ih, IsSorted]

theorem someMatrix_iff {fs : List (Expr ℚ)} : SomeMatrix o s fs ↔ ∃ f ∈ fs, IsMatrix o s f := by
  induction fs with
  | nil => simp [SomeMatrix]
  | cons f fs ih => simp [SomeMatrix, ih]

@[simp] theorem isMatrix_product {fs : List (Expr ℚ)} :
    IsMatrix o s (.product fs) ↔ (∀ f ∈ fs, IsSorted o s f) ∧ ∃ f ∈ fs, IsMatrix o s f := by
  rw [IsMatrix, allSorted_iff, someMatrix_iff]

@[simp] theorem isMatrix_matrix {g : Grid (Expr ℚ)} :
    IsMatrix o s (.matrix g) ↔ o = none ∧ g.shape = s ∧ g.Filled ∧ ∀ c ∈ g.cells, IsNumber o s c := by rw [IsMatrix]

theorem isMatrix_zero : IsMatrix o s (.const 0) := isMatrix_const.mpr rfl

/-- Being a power of the matrix does not depend on the quantity. -/
theorem IsMatrix.quantity {m : Monomial ℚ} (h : IsMatrix o s (.var m)) (q : ℚ) :
    IsMatrix o s (.var { m with quantity := q }) := by
  have hm := isMatrix_var.mp h
  exact isMatrix_var.mpr hm

theorem plain_kept (o : Option String) (s : Shape) : (plain o s).Kept where
  neg h := h
  bare h := h
  quantity _ h := h
  power _ _ _ h _ := h
  zip := by
    intro r c k k' h h'
    obtain ⟨ho, hs, hr, hc, rfl⟩ := h
    obtain ⟨-, -, -, -, rfl⟩ := h'
    exact ⟨ho, hs, hr, hc, rfl⟩
  mul := by
    intro r n c k k' h h'
    obtain ⟨ho, hs, rfl, -, -⟩ := h
    obtain ⟨-, -, -, rfl, -⟩ := h'
    exact ⟨ho, hs, rfl, rfl, rfl⟩

theorem plain_reciprocal (o : Option String) (s : Shape) : (plain o s).Reciprocal := fun _ _ h => h

/-! ## What a sort says about the shape -/

theorem IsNumber.shape {e : Expr ℚ} (h : IsNumber o s e) : e.shape = .ok .scalar := by
  induction h with
  | const v => rfl
  | var _ => rfl
  | sum _ ih => exact shape_sum_eq_ok.mpr ⟨fun _ => rfl, ih⟩
  | product _ ih => rw [Expr.shape, factorsShape_scalar ih, Option.getD_none]
  | @matrix g hg _ _ =>
    obtain ⟨-, -, hr, hc, -⟩ := hg
    rw [Expr.shape, Grid.shape, hr, hc]
    rfl

theorem IsMatrix.shape_cases {e : Expr ℚ} (h : IsMatrix none s e) {t : Shape} (ht : e.shape = .ok t) :
    t = .scalar ∨ t = s := by
  induction e generalizing t with
  | const v =>
    cases ht
    exact Or.inl rfl
  | var m =>
    cases ht
    exact Or.inl rfl
  | sum ts ih =>
    obtain ⟨hnil, hts⟩ := shape_sum_eq_ok.mp ht
    cases ts with
    | nil => exact Or.inl (hnil rfl)
    | cons x xs =>
      have hx : x ∈ x :: xs := List.mem_cons_self
      exact ih x hx (isMatrix_sum.mp h x hx) (hts x hx)
  | product fs ih =>
    have hf : ∀ f ∈ fs, ∀ x, f.shape = .ok x → x = .scalar ∨ x = s := by
      intro f hf x hx
      rcases (isMatrix_product.mp h).1 f hf with hn | hm
      · rw [hn.shape] at hx
        cases hx
        exact Or.inl rfl
      · exact ih f hf hm hx
    rcases factorsShape_cases hf (Or.inl rfl) ht with ⟨e, -⟩ | e
    · exact Or.inl e
    · exact Or.inr e
  | matrix g =>
    cases ht
    exact Or.inr (isMatrix_matrix.mp h).2.1

/-- The factors of a single number are single numbers. -/
theorem IsMatrix.scalar_factors {fs : List (Expr ℚ)} (h : IsMatrix none s (.product fs))
    (ht : (product fs).shape = .ok .scalar) : ∀ f ∈ fs, f.shape = .ok .scalar := by
  have hf : ∀ f ∈ fs, ∀ x, f.shape = .ok x → x = .scalar ∨ x = s := by
    intro f hf x hx
    rcases (isMatrix_product.mp h).1 f hf with hn | hm
    · rw [hn.shape] at hx
      cases hx
      exact Or.inl rfl
    · exact hm.shape_cases hx
  rcases factorsShape_cases hf (Or.inl rfl) ht with ⟨-, hall⟩ | e
  · exact hall
  · intro f hmem
    obtain ⟨x, hx⟩ := exists_shape_of_factorsShape ht f hmem
    rcases hf f hmem x hx with rfl | rfl
    · exact hx
    · rw [hx, ← e]

/-- A matrix that has the shape of a single number is put together as one. -/
theorem IsMatrix.isNumber {e : Expr ℚ} (h : IsMatrix none s e) (ht : e.shape = .ok .scalar) : IsNumber none s e := by
  induction e with
  | const v => exact .const v
  | var m => cases (isMatrix_var.mp h).1
  | sum ts ih =>
    obtain ⟨-, hts⟩ := shape_sum_eq_ok.mp ht
    exact .sum fun t hmem => ih t hmem (isMatrix_sum.mp h t hmem) (hts t hmem)
  | product fs ih =>
    refine .product fun f hmem => ?_
    rcases (isMatrix_product.mp h).1 f hmem with hn | hm
    · exact hn
    · exact ih f hmem hm (h.scalar_factors ht f hmem)
  | matrix g =>
    obtain ⟨-, hs, hfilled, hcells⟩ := isMatrix_matrix.mp h
    have hg : g.shape = .scalar := by simpa [Expr.shape] using ht
    obtain ⟨hr, hc⟩ : g.rows = 1 ∧ g.cols = 1 := by simpa [Grid.shape, Shape.scalar] using hg
    refine .matrix ⟨rfl, hs.symm.trans hg, hr, hc, ?_⟩ hcells
    rw [show g.cells.length = g.rows * g.cols from hfilled, hr, hc]

theorem IsMatrix.eval_eq_zero {e : Expr ℚ} (h : IsMatrix none s e) (ht : e.shape = .ok .scalar) (hs : s ≠ .scalar)
    (ρ : String → ℚ) : eval ρ e = 0 := by
  induction e with
  | const v => rw [isMatrix_const.mp h, eval_const]
  | var m => cases (isMatrix_var.mp h).1
  | sum ts ih =>
    obtain ⟨-, hts⟩ := shape_sum_eq_ok.mp ht
    rw [eval_sum]
    refine List.sum_eq_zero fun x hx => ?_
    obtain ⟨t, hmem, rfl⟩ := List.mem_map.mp hx
    exact ih t hmem (isMatrix_sum.mp h t hmem) (hts t hmem)
  | product fs ih =>
    obtain ⟨f, hmem, hf⟩ := (isMatrix_product.mp h).2
    rw [eval_product]
    exact List.prod_eq_zero (List.mem_map.mpr ⟨f, hmem, ih f hmem hf (h.scalar_factors ht f hmem)⟩)
  | matrix g =>
    have hg : g.shape = .scalar := by simpa [Expr.shape] using ht
    exact absurd ((isMatrix_matrix.mp h).2.1.symm.trans hg) hs

/-! ## Building trees -/

theorem isSorted_const (v : ℚ) : IsSorted o s (.const v) := Or.inl (.const v)

/-- A grid of one cell is a number only where the matrices are such grids. -/
theorem IsNumber.isMatrix_grid {g : Grid (Expr ℚ)} (h : IsNumber o s (.matrix g)) : IsMatrix o s (.matrix g) := by
  obtain ⟨⟨ho, hs, hr, hc, hk⟩, hcells⟩ := Everywhere.matrix_iff.mp h
  refine isMatrix_matrix.mpr ⟨ho, ?_, ?_, hcells⟩
  · rw [Grid.shape, hr, hc, hs]
    rfl
  · rw [Grid.Filled, hr, hc, hk]

theorem IsMatrix.cells {g : Grid (Expr ℚ)} {R : Expr ℚ → Expr ℚ → Prop} {cells : List (Expr ℚ)}
    (h : IsMatrix o s (.matrix g)) (hcells : List.Forall₂ R g.cells cells)
    (hR : ∀ x ∈ g.cells, ∀ y, IsNumber o s x → R x y → IsNumber o s y) :
    IsMatrix o s (.matrix ⟨g.rows, g.cols, cells⟩) := by
  obtain ⟨ho, hs, hfilled, hnumbers⟩ := isMatrix_matrix.mp h
  refine isMatrix_matrix.mpr ⟨ho, hs, ?_, forall_mem_right hcells fun x hx y hy => hR x hx y (hnumbers x hx) hy⟩
  show cells.length = g.rows * g.cols
  rw [← hcells.length_eq]
  exact hfilled

theorem IsSorted.terms {ts : List (Expr ℚ)} (h : IsSorted o s (.sum ts)) :
    ∀ t ∈ ts, IsSorted o s t ∧ (IsMatrix o s (.sum ts) → IsMatrix o s t) := by
  intro t ht
  refine ⟨?_, fun hm => isMatrix_sum.mp hm t ht⟩
  rcases h with h | h
  · exact Or.inl (Everywhere.sum_iff.mp h t ht)
  · exact Or.inr (isMatrix_sum.mp h t ht)

theorem IsSorted.factors {e : Expr ℚ} (h : IsSorted o s e) : ∀ f ∈ e.factors, IsSorted o s f := by
  rcases h with h | h
  · exact fun f hf => Or.inl (Everywhere.factors h f hf)
  · cases e with
    | product fs => exact (isMatrix_product.mp h).1
    | _ => exact fun f hf => List.mem_singleton.mp hf ▸ Or.inr h

theorem IsMatrix.factors {e : Expr ℚ} (h : IsMatrix o s e) : ∃ f ∈ e.factors, IsMatrix o s f := by
  cases e with
  | product fs => exact (isMatrix_product.mp h).2
  | _ => exact ⟨_, List.mem_singleton.mpr rfl, h⟩

theorem isMatrix_ofTerms {ts : List (Expr ℚ)} (h : ∀ t ∈ ts, IsMatrix o s t) : IsMatrix o s (ofTerms ts) := by
  rcases ofTerms_cases ts with ⟨-, hc⟩ | ⟨t, rfl, -⟩ | ⟨-, hc⟩
  · exact hc ▸ isMatrix_zero
  · exact h t (List.mem_singleton.mpr rfl)
  · exact hc ▸ isMatrix_sum.mpr h

theorem isMatrix_ofFactors {fs : List (Expr ℚ)} (h : ∀ f ∈ fs, IsSorted o s f) (hm : ∃ f ∈ fs, IsMatrix o s f) :
    IsMatrix o s (ofFactors fs) := by
  rcases ofFactors_cases fs with ⟨rfl, -⟩ | ⟨f, rfl, -⟩ | ⟨-, hc⟩
  · obtain ⟨f, hf, -⟩ := hm
    cases hf
  · obtain ⟨f', hf, hm⟩ := hm
    exact List.mem_singleton.mp hf ▸ hm
  · exact hc ▸ isMatrix_product.mpr ⟨h, hm⟩

theorem isMatrix_ofMonomial {m : Monomial ℚ} (h : IsMatrix o s (.var m)) : IsMatrix o s (ofMonomial m) := by
  obtain ⟨ho, k, hk, he⟩ := isMatrix_var.mp h
  rcases ofMonomial_cases m with ⟨-, hc⟩ | ⟨h0, -⟩ | ⟨-, -, hc⟩
  · exact hc ▸ isMatrix_zero
  · rw [he, Rational.nearZero_iff, Nat.cast_eq_zero] at h0
    omega
  · exact hc ▸ h

theorem isSorted_ofMonomial {m : Monomial ℚ} (h : IsSorted o s (.var m)) : IsSorted o s (ofMonomial m) := by
  rcases h with h | h
  · exact Or.inl (Everywhere.collapse h)
  · exact Or.inr (isMatrix_ofMonomial h)

theorem ofMonomial_of_zero {m : Monomial ℚ} (h : m.quantity = 0) : ofMonomial m = .const 0 :=
  if_pos (Rational.nearZero_iff.mpr h)

theorem IsMatrix.collapse {e : Expr ℚ} (h : IsMatrix o s e) : IsMatrix o s e.collapse := by
  cases e with
  | var m => exact isMatrix_ofMonomial h
  | _ => exact h

theorem IsSorted.collapse {e : Expr ℚ} (h : IsSorted o s e) : IsSorted o s e.collapse := by
  rcases h with h | h
  · exact Or.inl (Everywhere.collapse h)
  · exact Or.inr h.collapse

theorem isMatrix_mulConstant {v : ℚ} {fs : List (Expr ℚ)} (h : ∀ f ∈ fs, IsSorted o s f)
    (hm : v = 0 ∨ ∃ f ∈ fs, IsMatrix o s f) : IsMatrix o s (mulConstant v fs) := by
  rcases hm with rfl | hm
  · rw [mulConstant_of_zero (by simp)]
    exact isMatrix_zero
  rcases mulConstant_cases v fs with ⟨-, hc⟩ | ⟨-, hc⟩ | ⟨w, rest, rfl, hc⟩ | ⟨-, hc⟩
  · exact hc ▸ isMatrix_zero
  · exact hc ▸ isMatrix_product.mpr ⟨h, hm⟩
  · obtain ⟨-, hrest⟩ := List.forall_mem_cons.mp h
    obtain ⟨f, hf, hm⟩ := hm
    -- The number in front is zero if it is the one that counts as a matrix, and then it stays.
    rcases hc with ⟨hw, hc⟩ | hc
    · rcases List.mem_cons.mp hf with rfl | hf
      · rw [isMatrix_const.mp hm, zero_mul, Rational.nearOne_iff] at hw
        cases hw
      · exact hc ▸ isMatrix_ofFactors hrest ⟨f, hf, hm⟩
    · rw [hc]
      refine isMatrix_product.mpr ⟨List.forall_mem_cons.mpr ⟨isSorted_const _, hrest⟩, ?_⟩
      rcases List.mem_cons.mp hf with rfl | hf
      · exact ⟨_, List.mem_cons_self, by rw [isMatrix_const.mp hm, zero_mul]; exact isMatrix_zero⟩
      · exact ⟨f, List.mem_cons_of_mem _ hf, hm⟩
  · obtain ⟨f, hf, hm⟩ := hm
    rw [hc]
    exact isMatrix_product.mpr ⟨List.forall_mem_cons.mpr ⟨isSorted_const v, h⟩, f, List.mem_cons_of_mem _ hf, hm⟩

theorem isSorted_splitFrom {v : ℚ} {fs : List (Expr ℚ)} (h : ∀ f ∈ fs, IsSorted o s f) :
    ∀ f ∈ (splitFrom v fs).2, IsSorted o s f := by
  refine forall_splitFrom (fun m hm => ?_) h
  rcases hm with hm | hm
  · exact Or.inl (.var ((plain_kept o s).bare (Everywhere.var_iff.mp hm)))
  · exact Or.inr (hm.quantity 1)

theorem splitFrom_zero (fs : List (Expr ℚ)) : (splitFrom 0 fs).1 = 0 := by
  induction fs with
  | nil => rfl
  | cons f fs ih => cases f <;> simpa [splitFrom] using ih

/-- The matrix among the factors is left when the numbers are taken out, unless it was zero. -/
theorem isMatrix_splitFrom {v : ℚ} {fs : List (Expr ℚ)} (h : ∃ f ∈ fs, IsMatrix o s f) :
    (splitFrom v fs).1 = 0 ∨ ∃ f ∈ (splitFrom v fs).2, IsMatrix o s f := by
  induction fs generalizing v with
  | nil =>
    obtain ⟨f, hf, -⟩ := h
    cases hf
  | cons x xs ih =>
    obtain ⟨f, hf, hm⟩ := h
    -- Further on, with what the head leaves in front.
    have later : ∀ (w : ℚ) (ys : List (Expr ℚ)), f ∈ xs →
        (splitFrom w xs).1 = 0 ∨ ∃ f ∈ ys ++ (splitFrom w xs).2, IsMatrix o s f := by
      intro w ys hf
      rcases ih (v := w) ⟨f, hf, hm⟩ with h0 | ⟨g, hg, hm⟩
      · exact Or.inl h0
      · exact Or.inr ⟨g, List.mem_append_right _ hg, hm⟩
    rcases List.mem_cons.mp hf with rfl | hxs
    · cases f with
      | const w =>
        rw [isMatrix_const.mp hm, splitFrom, mul_zero, splitFrom_zero]
        exact Or.inl rfl
      | var m => exact Or.inr ⟨_, List.mem_cons_self, hm.quantity 1⟩
      | sum ts => exact Or.inr ⟨_, List.mem_cons_self, hm⟩
      | product fs => exact Or.inr ⟨_, List.mem_cons_self, hm⟩
      | matrix g => exact Or.inr ⟨_, List.mem_cons_self, hm⟩
    · cases x with
      | const w => exact later (v * w) [] hxs
      | var m => exact later (v * m.quantity) [.var m.bare] hxs
      | sum ts => exact later v [.sum ts] hxs
      | product fs => exact later v [.product fs] hxs
      | matrix g => exact later v [.matrix g] hxs

/-! ## Negation -/

theorem IsMatrix.flipSign {e : Expr ℚ} (h : IsMatrix o s e) : IsMatrix o s e.flipSign := by
  cases e with
  | const v =>
    rw [Expr.flipSign, isMatrix_const.mp h, neg_zero]
    exact isMatrix_zero
  | var m => exact h.quantity (-m.quantity)
  | _ => exact h

theorem IsSorted.flipSign {e : Expr ℚ} (h : IsSorted o s e) : IsSorted o s e.flipSign := by
  rcases h with h | h
  · exact Or.inl (Everywhere.flipSign (plain_kept o s) h)
  · exact Or.inr h.flipSign

theorem isMatrix_negFactors {fs : List (Expr ℚ)} (h : IsMatrix o s (.product fs)) :
    IsMatrix o s (.product (negFactors fs)) := by
  obtain ⟨hfs, hm⟩ := isMatrix_product.mp h
  refine isMatrix_product.mpr ⟨forall_negFactors (fun _ hf => hf.flipSign) (isSorted_const _) hfs, ?_⟩
  obtain ⟨g, hg, hm⟩ := hm
  rcases negFactors_cases fs with ⟨xs, f, ys, rfl, -, hneg⟩ | ⟨-, hneg⟩
  · rw [hneg]
    rcases List.mem_append.mp hg with hg | hg
    · exact ⟨g, List.mem_append_left _ hg, hm⟩
    · rcases List.mem_cons.mp hg with rfl | hg
      · exact ⟨_, List.mem_append_right _ List.mem_cons_self, hm.flipSign⟩
      · exact ⟨g, List.mem_append_right _ (List.mem_cons_of_mem _ hg), hm⟩
  · rw [hneg]
    exact ⟨g, List.mem_cons_of_mem _ hg, hm⟩

theorem IsMatrix.neg {e : Expr ℚ} (h : IsMatrix o s e) : IsMatrix o s e.neg := by
  induction e with
  | const v =>
    rw [Expr.neg, isMatrix_const.mp h, neg_zero]
    exact isMatrix_zero
  | var m => exact h.quantity (-m.quantity)
  | sum ts ih =>
    rw [Expr.neg, negAll_eq_map]
    exact isMatrix_sum.mpr (List.forall_mem_map.mpr fun t ht => ih t ht (isMatrix_sum.mp h t ht))
  | product fs => exact isMatrix_negFactors h
  | matrix g =>
    obtain ⟨ho, hs, hfilled, hcells⟩ := isMatrix_matrix.mp h
    rw [Expr.neg, negAll_eq_map]
    refine isMatrix_matrix.mpr ⟨ho, hs, hfilled.map Expr.neg, ?_⟩
    exact List.forall_mem_map.mpr fun c hc => Everywhere.neg (plain_kept o s) (hcells c hc)

end SymbolicAlgebra.Expr
