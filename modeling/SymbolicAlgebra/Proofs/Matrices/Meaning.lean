/-
  SymbolicAlgebra.Proofs.Matrices.Meaning — the matrix that a tree stands for by the rules of matrices.

  `Expr.grid?` computes a tree cell by cell: matrices are added if they have one shape, and multiplied
  if columns and rows agree or one of them is a single number, which is a matrix of one cell. There
  need not be a result. But a tree that has a shape and is put together as a matrix has one
  (`IsMatrix.standsFor`), and the reading of the tree says which: trees of one reading stand for the same
  matrix (`same_of_value`), where the number zero may stand for a matrix of zeros.
-/

import SymbolicAlgebra.Proofs.Matrices.Readings

namespace SymbolicAlgebra

namespace Grid

/-- The number in a grid of one cell. -/
def number? : Grid ℚ → Option ℚ
  | ⟨1, 1, [v]⟩ => some v
  | _ => none

def IsZero (g : Grid ℚ) : Prop := ∀ v ∈ g.cells, v = 0

/-- The same matrix, or both of them zero. -/
def Same (g h : Grid ℚ) : Prop := g = h ∨ g.IsZero ∧ h.IsZero

@[simp] theorem number?_number (v : ℚ) : (number v).number? = some v := rfl

@[simp] theorem shape_number (v : ℚ) : (number v).shape = .scalar := rfl

theorem isZero_number : (number 0).IsZero := by simp [IsZero, number]

@[simp] theorem add?_number (v w : ℚ) : (number v).add? (number w) = some (number (v + w)) := rfl

theorem number_mul? (v : ℚ) (g : Grid ℚ) : (number v).mul? g = some (g.map (v * ·)) := rfl

theorem mul?_number {g : Grid ℚ} (hg : g.shape ≠ .scalar) (v : ℚ) : g.mul? (number v) = some (g.map (v * ·)) := by
  rw [mul?, if_neg hg, if_pos (shape_number v)]
  rfl

theorem mul?_of_cols_eq {g h : Grid ℚ} (hg : g.shape ≠ .scalar) (hh : h.shape ≠ .scalar) (hd : g.cols = h.rows) :
    g.mul? h = some (g.dot h) := by
  rw [mul?, if_neg hg, if_neg hh, if_pos hd]

theorem IsZero.padded {N : Nat} {g : Grid ℚ} (h : g.IsZero) : padded N g = 0 := by
  have he : g = g.map (0 * ·) := by
    obtain ⟨r, c, cells⟩ := g
    simp only [map, zero_mul, mk.injEq, true_and]
    exact (List.map_id cells).symm.trans (List.map_congr_left h)
  rw [he, padded_map, zero_smul]

theorem isZero_of_padded {N : Nat} {g : Grid ℚ} (hg : g.Filled) (hr : g.rows ≤ N) (hc : g.cols ≤ N) (h : padded N g = 0) :
    g.IsZero := by
  have he : g = g.map (0 * ·) := eq_of_padded rfl hg (hg.map _) hr hc (by rw [padded_map, zero_smul, h])
  intro v hv
  rw [he] at hv
  obtain ⟨w, -, rfl⟩ := List.mem_map.mp hv
  exact zero_mul w

end Grid

namespace Expr

/-! ## The rules -/

section
variable (ρ : String → ℚ)

mutual

/-- The matrix that a tree stands for. -/
def grid? : Expr ℚ → Option (Grid ℚ)
  | .const v => some (.number v)
  | .var m => some (.number (m.eval ρ))
  | .sum ts => gridSum? ts
  | .product fs => gridProduct? fs
  | .matrix ⟨r, c, cells⟩ => (numbers? cells).map fun vs => ⟨r, c, vs⟩

def gridSum? : List (Expr ℚ) → Option (Grid ℚ)
  | [] => some (.number 0)
  | [t] => grid? t
  | t :: ts => (grid? t).bind fun g => (gridSum? ts).bind fun h => g.add? h

def gridProduct? : List (Expr ℚ) → Option (Grid ℚ)
  | [] => some (.number 1)
  | f :: fs => (grid? f).bind fun g => (gridProduct? fs).bind fun h => g.mul? h

/-- The numbers that the cells of a matrix stand for. -/
def numbers? : List (Expr ℚ) → Option (List ℚ)
  | [] => some []
  | c :: cs => ((grid? c).bind Grid.number?).bind fun v => (numbers? cs).map fun vs => v :: vs

end

end

variable {o : Option String} {s : Shape} {ρ : String → ℚ} {N : Nat} {M : Matrix (Fin N) (Fin N) ℚ} {e : Expr ℚ}

/-! ## Numbers -/

theorem numbers?_eq_map {cs : List (Expr ℚ)} (h : ∀ c ∈ cs, grid? ρ c = some (.number (eval ρ c))) :
    numbers? ρ cs = some (cs.map (eval ρ)) := by
  induction cs with
  | nil => rw [numbers?, List.map_nil]
  | cons c cs ih =>
    obtain ⟨hc, hcs⟩ := List.forall_mem_cons.mp h
    simp [numbers?, hc, ih hcs]

theorem gridSum?_cons {t : Expr ℚ} {ts : List (Expr ℚ)} (hts : ts ≠ []) :
    gridSum? ρ (t :: ts) = (grid? ρ t).bind fun g => (gridSum? ρ ts).bind fun h => g.add? h := by
  cases ts with
  | nil => exact absurd rfl hts
  | cons u us =>
    rw [gridSum?]
    exact List.cons_ne_nil u us

theorem gridSum?_numbers {ts : List (Expr ℚ)} (h : ∀ t ∈ ts, grid? ρ t = some (.number (eval ρ t))) :
    gridSum? ρ ts = some (.number (ts.map (eval ρ)).sum) := by
  induction ts with
  | nil => rw [gridSum?, List.map_nil, List.sum_nil]
  | cons t ts ih =>
    obtain ⟨ht, hts⟩ := List.forall_mem_cons.mp h
    by_cases hnil : ts = []
    · simp [hnil, gridSum?, ht]
    · simp [gridSum?_cons hnil, ht, ih hts]

theorem gridProduct?_numbers {fs : List (Expr ℚ)} (h : ∀ f ∈ fs, grid? ρ f = some (.number (eval ρ f))) :
    gridProduct? ρ fs = some (.number (fs.map (eval ρ)).prod) := by
  induction fs with
  | nil => rw [gridProduct?, List.map_nil, List.prod_nil]
  | cons f fs ih =>
    obtain ⟨hf, hfs⟩ := List.forall_mem_cons.mp h
    simp only [gridProduct?, hf, ih hfs, Option.bind_some, Grid.number_mul?]
    rfl

/-- A number stands for its value. -/
theorem IsNumber.grid? (h : IsNumber o s e) : Expr.grid? ρ e = some (.number (eval ρ e)) := by
  induction h with
  | const v => rw [Expr.grid?, eval_const]
  | var _ => rw [Expr.grid?, eval_var]
  | sum _ ih => rw [Expr.grid?, eval_sum, gridSum?_numbers ih]
  | product _ ih => rw [Expr.grid?, eval_product, gridProduct?_numbers ih]
  | @matrix g hg _ ih =>
    obtain ⟨r, c, cells⟩ := g
    obtain ⟨-, -, hr, hc, hk⟩ := hg
    obtain ⟨x, hx⟩ := List.length_eq_one_iff.mp hk
    simp only at hr hc hx
    subst hr hc hx
    rw [Expr.grid?, numbers?_eq_map ih, eval_cell]
    rfl

/-! ## Matrices -/

/-- The tree stands for a matrix of shape `t`, which is its reading. -/
def StandsFor (ρ : String → ℚ) (M : Matrix (Fin N) (Fin N) ℚ) (t : Shape) (e : Expr ℚ) : Prop :=
  ∃ g, grid? ρ e = some g ∧ g.shape = t ∧ g.Filled ∧ g.padded N = (matrices none ρ M).value e

/-- Where a matrix has the shape of a single number it is one, and zero unless all matrices are. -/
theorem IsMatrix.standsFor_scalar (hN : s.Fits N) (h : IsMatrix none s e) (ht : e.shape = .ok .scalar) :
    StandsFor ρ M .scalar e := by
  have hn := h.isNumber ht
  refine ⟨_, hn.grid?, rfl, rfl, ?_⟩
  rw [hn.value hN]
  by_cases hs : s = .scalar
  · exact padded_cell (hN.one hs) _
  · rw [h.eval_eq_zero ht hs ρ, Grid.isZero_number.padded, zero_smul]

theorem gridSum?_matrices {ts : List (Expr ℚ)} (hts : ts ≠ []) (h : ∀ t ∈ ts, StandsFor ρ M s t) :
    ∃ g, gridSum? ρ ts = some g ∧ g.shape = s ∧ g.Filled ∧ g.padded N = (ts.map (matrices none ρ M).value).sum := by
  induction ts with
  | nil => exact absurd rfl hts
  | cons t ts ih =>
    obtain ⟨⟨g, hg, hsg, hfg, hvg⟩, hts⟩ := List.forall_mem_cons.mp h
    by_cases hnil : ts = []
    · subst hnil
      exact ⟨g, by rw [gridSum?, hg], hsg, hfg, by simp [hvg]⟩
    · obtain ⟨k, hk, hsk, hfk, hvk⟩ := ih hnil hts
      have hs : g.shape = k.shape := hsg.trans hsk.symm
      refine ⟨⟨g.rows, g.cols, List.zipWith (· + ·) g.cells k.cells⟩, ?_, hsg, Grid.filled_zip hs hfg hfk, ?_⟩
      · rw [gridSum?_cons hnil, hg, hk]
        exact if_pos hs
      · rw [Grid.padded_zip hs hfg hfk, hvg, hvk, List.map_cons, List.sum_cons]

/-- The factors of a product are single numbers or have the shape of the matrices. Beside a matrix on
    the left, `chain`, further ones must be square. -/
theorem gridProduct?_matrices (hN : s.Fits N) (hs : s ≠ .scalar) {fs : List (Expr ℚ)} {chain : Option Shape} {t : Shape}
    (hc : chain = none ∨ chain = some s) (hshape : factorsShape chain fs = .ok t)
    (hfs : ∀ f ∈ fs, IsNumber none s f ∨ f.shape = .ok s ∧ StandsFor ρ M s f) :
    (∀ f ∈ fs, IsNumber none s f) ∨ (chain = some s → s.cols = s.rows) ∧
      ∃ g, gridProduct? ρ fs = some g ∧ g.shape = s ∧ g.Filled ∧ g.padded N = (fs.map (matrices none ρ M).value).prod := by
  induction fs generalizing chain with
  | nil => exact Or.inl nofun
  | cons f fs ih =>
    obtain ⟨hf, hfs⟩ := List.forall_mem_cons.mp hfs
    rcases hf with hf | ⟨hsf, g, hg, hsg, hfg, hvg⟩
    · have hrest : factorsShape chain fs = .ok t := by rwa [factorsShape_skip hf.shape] at hshape
      rcases ih hc hrest hfs with hall | ⟨hsquare, k, hk, hsk, hfk, hvk⟩
      · exact Or.inl (List.forall_mem_cons.mpr ⟨hf, hall⟩)
      · refine Or.inr ⟨hsquare, k.map (eval ρ f * ·), ?_, hsk, hfk.map _, ?_⟩
        · rw [gridProduct?, hf.grid?, hk]
          rfl
        · rw [Grid.padded_map, hvk, List.map_cons, List.prod_cons, hf.value hN, smul_one_mul]
    · have hgs : g.shape ≠ .scalar := by rwa [hsg]
      -- What follows the matrix chains with it.
      obtain ⟨hsquare, hrest⟩ : (chain = some s → s.cols = s.rows) ∧ factorsShape (some s) fs = .ok t := by
        rcases hc with rfl | rfl
        · rw [factorsShape_begin hsf hs] at hshape
          exact ⟨nofun, hshape⟩
        · obtain ⟨x, hx, ⟨rfl, -⟩ | ⟨-, h, -⟩ | ⟨-, left, h, hd, hrest⟩⟩ := factorsShape_cons hshape
          · cases hx.symm.trans hsf
            exact absurd rfl hs
          · cases h
          · cases hx.symm.trans hsf
            cases h
            exact ⟨fun _ => hd, hrest⟩
      rcases ih (Or.inr rfl) hrest hfs with hall | ⟨hd, k, hk, hsk, hfk, hvk⟩
      · have hnumbers := gridProduct?_numbers fun f hf => (hall f hf).grid? (ρ := ρ)
        refine Or.inr ⟨hsquare, g.map ((fs.map (eval ρ)).prod * ·), ?_, hsg, hfg.map _, ?_⟩
        · rw [gridProduct?, hg, hnumbers]
          exact Grid.mul?_number hgs _
        · have hvalue := IsNumber.value (ρ := ρ) (M := M) hN (Everywhere.product hall)
          rw [eval_product, Interpretation.value_product] at hvalue
          rw [Grid.padded_map, hvg, List.map_cons, List.prod_cons, hvalue, mul_smul_one]
      · have hcols : g.cols = k.rows := by rw [Grid.cols_of_shape hsg, hd rfl, Grid.rows_of_shape hsk]
        refine Or.inr ⟨hsquare, g.dot k, ?_, Grid.shape_dot hsg hsk, Grid.filled_dot g k, ?_⟩
        · rw [gridProduct?, hg, hk]
          exact Grid.mul?_of_cols_eq hgs (by rwa [hsk]) hcols
        · rw [Grid.padded_dot (hN.cols_le hsg), hvg, hvk, List.map_cons, List.prod_cons]

/-- A matrix that has a shape stands for one of that shape, its reading. -/
theorem IsMatrix.standsFor (hN : s.Fits N) (h : IsMatrix none s e) {t : Shape} (ht : e.shape = .ok t) :
    StandsFor ρ M t e := by
  induction e generalizing t with
  | const v =>
    cases ht
    exact h.standsFor_scalar hN rfl
  | var m => cases (isMatrix_var.mp h).1
  | sum ts ih =>
    by_cases hnil : ts = []
    · subst hnil
      cases ht
      exact h.standsFor_scalar hN rfl
    · obtain ⟨g, hg, hrest⟩ := gridSum?_matrices (ρ := ρ) (M := M) hnil fun x hx =>
        ih x hx (isMatrix_sum.mp h x hx) ((shape_sum_eq_ok.mp ht).2 x hx)
      exact ⟨g, by rw [Expr.grid?, hg], by rwa [Interpretation.value_sum]⟩
  | product fs ih =>
    rcases h.shape_cases ht with rfl | rfl
    · exact h.standsFor_scalar hN ht
    · by_cases hs : t = .scalar
      · subst hs
        exact h.standsFor_scalar hN ht
      · have hfs : ∀ f ∈ fs, IsNumber none t f ∨ f.shape = .ok t ∧ StandsFor ρ M t f := by
          intro f hf
          rcases (isMatrix_product.mp h).1 f hf with hn | hm
          · exact Or.inl hn
          · obtain ⟨x, hx⟩ := exists_shape_of_factorsShape ht f hf
            rcases hm.shape_cases hx with rfl | rfl
            · exact Or.inl (hm.isNumber hx)
            · exact Or.inr ⟨hx, ih f hf hm hx⟩
        rcases gridProduct?_matrices (M := M) hN hs (Or.inl rfl) ht hfs with hall | ⟨-, g, hg, hrest⟩
        · have hscalar : (product fs).shape = .ok .scalar := IsNumber.shape (Everywhere.product hall)
          cases hscalar.symm.trans ht
          exact absurd rfl hs
        · exact ⟨g, by rw [Expr.grid?, hg], by rwa [Interpretation.value_product]⟩
  | matrix g =>
    obtain ⟨-, hs, hfilled, hcells⟩ := isMatrix_matrix.mp h
    obtain ⟨r, c, cells⟩ := g
    cases ht
    refine ⟨_, by rw [Expr.grid?, numbers?_eq_map fun x hx => (hcells x hx).grid?]; rfl, rfl, hfilled.map (eval ρ), ?_⟩
    rw [Interpretation.value_matrix]
    rfl

theorem IsMatrix.shape_or_isZero (h : IsMatrix none s e) {t : Shape} (ht : e.shape = .ok t) {g : Grid ℚ}
    (hg : Expr.grid? ρ e = some g) (hs : g.shape = t) : g.shape = s ∨ g.IsZero := by
  rcases h.shape_cases ht with rfl | rfl
  · by_cases h1 : s = .scalar
    · exact Or.inl (hs.trans h1.symm)
    · have hnumber := (h.isNumber ht).grid? (ρ := ρ)
      rw [hg, h.eval_eq_zero ht h1 ρ] at hnumber
      cases hnumber
      exact Or.inr Grid.isZero_number
  · exact Or.inl hs

/-- Matrices of one reading that have a shape stand for the same matrix. -/
theorem same_of_value {c : Expr ℚ} (hN : s.Fits N) (he : IsMatrix none s e) (hc : IsMatrix none s c) {t u : Shape}
    (ht : e.shape = .ok t) (hu : c.shape = .ok u) (h : (matrices none ρ M).value e = (matrices none ρ M).value c) :
    ∃ g k, grid? ρ e = some g ∧ grid? ρ c = some k ∧ g.Same k := by
  obtain ⟨g, hg, hsg, hfg, hvg⟩ := he.standsFor (ρ := ρ) (M := M) hN ht
  obtain ⟨k, hk, hsk, hfk, hvk⟩ := hc.standsFor (ρ := ρ) (M := M) hN hu
  refine ⟨g, k, hg, hk, ?_⟩
  have hpadded : g.padded N = k.padded N := by rw [hvg, hvk, h]
  have zero : ∀ {g : Grid ℚ}, g.Filled → g.shape = s ∨ g.IsZero → g.padded N = 0 → g.IsZero := by
    intro g hf hor h0
    rcases hor with rfl | hz
    · exact Grid.isZero_of_padded hf hN.rows hN.cols h0
    · exact hz
  have hgs := he.shape_or_isZero ht hg hsg
  have hks := hc.shape_or_isZero hu hk hsk
  by_cases h0 : g.padded N = 0
  · exact Or.inr ⟨zero hfg hgs h0, zero hfk hks (by rw [← hpadded, h0])⟩
  · have hgs := hgs.resolve_right fun hz => h0 hz.padded
    have hks := hks.resolve_right fun hz => h0 (by rw [hpadded, hz.padded])
    subst hgs
    exact Or.inl (Grid.eq_of_padded hks.symm hfg hfk hN.rows hN.cols hpadded)

end Expr

end SymbolicAlgebra
