/-
  SymbolicAlgebra.Proofs.Shapes.Chains — how the shape of a sum or a product comes from its parts.

  A sum has the shape that all of its terms have (`shape_sum_eq_ok`). A product passes over single
  numbers and links the shapes that are left, columns to rows, so its shape does not change when
  numbers among its factors come, go or change (`factorsShape_splitFrom`, `factorsShape_negFactors`).
  A chain that is cut in two has the shape of the two parts multiplied (`times?_of_append`), also
  where one of the parts comes down to a single number. Of two chains, the second is refused behind
  the first only at its first matrix (`factorsShape_behind`).
-/

import SymbolicAlgebra.Proofs.Everywhere

namespace SymbolicAlgebra

/-! ## Multiplying shapes -/

namespace Shape

/-- The shape of a product of values of two shapes, if they can be multiplied. -/
def times? (s t : Shape) : Option Shape :=
  if s = scalar then some t
  else if t = scalar then some s
  else if s.cols = t.rows then some ⟨s.rows, t.cols⟩
  else none

@[simp] theorem times?_scalar_left (t : Shape) : times? scalar t = some t := if_pos rfl

@[simp] theorem times?_scalar_right (s : Shape) : times? s scalar = some s := by
  unfold times?
  split
  · rename_i h
    rw [h]
  · rfl

/-- Columns that meet as many rows multiply by the one rule, single numbers or not. -/
theorem times?_of_cols_eq {s t : Shape} (h : s.cols = t.rows) : s.times? t = some ⟨s.rows, t.cols⟩ := by
  obtain ⟨r, k⟩ := s
  obtain ⟨k', c⟩ := t
  cases h
  unfold times?
  split
  · rename_i hs
    cases hs
    rfl
  · split
    · rename_i ht
      cases ht
      rfl
    · exact if_pos rfl

/-- One of the shapes is that of single numbers, or the columns of the left one meet the rows of the right one. -/
theorem times?_eq_some {s t u : Shape} (h : s.times? t = some u) :
    (s = scalar ∧ u = t) ∨ (t = scalar ∧ u = s) ∨ (s.cols = t.rows ∧ u = ⟨s.rows, t.cols⟩) := by
  unfold times? at h
  split at h
  · rename_i hs
    exact Or.inl ⟨hs, (Option.some.inj h).symm⟩
  · split at h
    · rename_i ht
      exact Or.inr (Or.inl ⟨ht, (Option.some.inj h).symm⟩)
    · split at h
      · rename_i hc
        exact Or.inr (Or.inr ⟨hc, (Option.some.inj h).symm⟩)
      · cases h

theorem isScalar_iff {s : Shape} : s.isScalar = true ↔ s = scalar := by simp [isScalar]

end Shape

namespace Expr

variable {α : Type}

/-! ## Sums -/

theorem restShape_eq_ok {left t : Shape} {ts : List (Expr α)} :
    restShape left ts = .ok t ↔ t = left ∧ ∀ x ∈ ts, x.shape = .ok left := by
  induction ts with
  | nil => simp [restShape, eq_comm]
  | cons x xs ih =>
    simp only [restShape, bind_eq_ok, List.forall_mem_cons]
    constructor
    · intro h
      obtain ⟨right, hr, h⟩ := h
      split at h
      · rename_i e
        obtain ⟨ht, hxs⟩ := ih.mp h
        exact ⟨ht, by rw [hr, e], hxs⟩
      · simp at h
    · intro h
      obtain ⟨rfl, hx, hxs⟩ := h
      exact ⟨t, hx, by rw [if_pos rfl]; exact ih.mpr ⟨rfl, hxs⟩⟩

theorem shape_sum_eq_ok {t : Shape} {ts : List (Expr α)} :
    (sum ts).shape = .ok t ↔ (ts = [] → t = .scalar) ∧ ∀ x ∈ ts, x.shape = .ok t := by
  rw [shape]
  cases ts with
  | nil => simp [termsShape, eq_comm]
  | cons x xs =>
    simp only [termsShape, bind_eq_ok, restShape_eq_ok, List.forall_mem_cons]
    constructor
    · intro h
      obtain ⟨left, hx, rfl, hxs⟩ := h
      exact ⟨fun hnil => absurd hnil (List.cons_ne_nil x xs), hx, hxs⟩
    · intro h
      exact ⟨t, h.2.1, rfl, h.2.2⟩

theorem termsShape_congr {ts us : List (Expr α)} (h : ts.map shape = us.map shape) : termsShape ts = termsShape us := by
  have rest : ∀ (left : Shape) (ts us : List (Expr α)), ts.map shape = us.map shape →
      restShape left ts = restShape left us := by
    intro left ts
    induction ts with
    | nil =>
      intro us h
      rw [List.map_eq_nil_iff.mp h.symm]
    | cons t ts ih =>
      intro us h
      obtain ⟨u, us, rfl, hu, hus⟩ := List.map_eq_cons_iff.mp h.symm
      simp only [restShape, hu, ih us hus.symm]
  cases ts with
  | nil => rw [List.map_eq_nil_iff.mp h.symm]
  | cons t ts =>
    obtain ⟨u, us, rfl, hu, hus⟩ := List.map_eq_cons_iff.mp h.symm
    simp only [termsShape, hu, rest _ ts us hus.symm]

/-! ## Products -/

/-- A single number is passed over. -/
theorem factorsShape_skip {chain : Option Shape} {f : Expr α} {fs : List (Expr α)} (hf : f.shape = .ok .scalar) :
    factorsShape chain (f :: fs) = factorsShape chain fs := by
  rw [factorsShape, hf]
  rfl

/-- The first shape begins the chain. -/
theorem factorsShape_begin {f : Expr α} {fs : List (Expr α)} {x : Shape} (hf : f.shape = .ok x) (hx : x ≠ .scalar) :
    factorsShape none (f :: fs) = factorsShape (some x) fs := by
  have hs : x.isScalar = false := by simpa [Shape.isScalar] using hx
  rw [factorsShape, hf, ok_bind, hs]
  rfl

/-- A further shape is linked to the chain, columns to rows. -/
theorem factorsShape_link {left x : Shape} {f : Expr α} {fs : List (Expr α)} (hf : f.shape = .ok x) (hx : x ≠ .scalar)
    (hc : left.cols = x.rows) : factorsShape (some left) (f :: fs) = factorsShape (some ⟨left.rows, x.cols⟩) fs := by
  have hs : x.isScalar = false := by simpa [Shape.isScalar] using hx
  rw [factorsShape, hf, ok_bind, hs]
  simp only [Bool.false_eq_true, if_false]
  rw [if_pos hc]

theorem factorsShape_congr {chain : Option Shape} {fs gs : List (Expr α)} (h : fs.map shape = gs.map shape) :
    factorsShape chain fs = factorsShape chain gs := by
  induction fs generalizing chain gs with
  | nil => rw [List.map_eq_nil_iff.mp h.symm]
  | cons f fs ih =>
    obtain ⟨g, gs, rfl, hg, hgs⟩ := List.map_eq_cons_iff.mp h.symm
    simp only [factorsShape, hg, ih hgs.symm]

theorem factorsShape_single (e : Expr α) : factorsShape none [e] = e.shape := by
  rw [factorsShape]
  cases e.shape with
  | error x => rfl
  | ok s =>
    rw [ok_bind]
    split
    · rename_i hs
      rw [Shape.isScalar_iff.mp hs]
      simp [factorsShape]
    · simp [factorsShape]

/-- Anything is the product of its factors. -/
theorem factorsShape_factors (e : Expr α) : factorsShape none e.factors = e.shape := by
  cases e with
  | product fs => rw [factors, shape]
  | _ => exact factorsShape_single _

theorem factorsShape_cons {chain : Option Shape} {f : Expr α} {fs : List (Expr α)} {t : Shape}
    (h : factorsShape chain (f :: fs) = .ok t) : ∃ x, f.shape = .ok x ∧
      (x = .scalar ∧ factorsShape chain fs = .ok t ∨
        x ≠ .scalar ∧ chain = none ∧ factorsShape (some x) fs = .ok t ∨
        x ≠ .scalar ∧ ∃ left, chain = some left ∧ left.cols = x.rows ∧
          factorsShape (some ⟨left.rows, x.cols⟩) fs = .ok t) := by
  rw [factorsShape] at h
  obtain ⟨x, hx, h⟩ := bind_eq_ok.mp h
  refine ⟨x, hx, ?_⟩
  split at h
  · rename_i hs
    exact Or.inl ⟨eq_of_beq hs, h⟩
  · rename_i hs
    have hs : x ≠ .scalar := fun e => hs (by simp [e, Shape.isScalar])
    cases chain with
    | none => exact Or.inr (Or.inl ⟨hs, rfl, h⟩)
    | some left =>
      simp only at h
      split at h
      · rename_i hc
        exact Or.inr (Or.inr ⟨hs, left, rfl, hc, h⟩)
      · simp at h

theorem factorsShape_scalar {chain : Option Shape} {fs : List (Expr α)} (h : ∀ f ∈ fs, f.shape = .ok .scalar) :
    factorsShape chain fs = .ok (chain.getD .scalar) := by
  induction fs with
  | nil => simp [factorsShape]
  | cons f fs ih =>
    obtain ⟨hf, hfs⟩ := List.forall_mem_cons.mp h
    rw [factorsShape, hf]
    exact ih hfs

/-- Single numbers in front are passed over. -/
theorem factorsShape_append_of_scalar {chain : Option Shape} {fs gs : List (Expr α)} (h : ∀ f ∈ fs, f.shape = .ok .scalar) :
    factorsShape chain (fs ++ gs) = factorsShape chain gs := by
  induction fs with
  | nil => rfl
  | cons f fs ih =>
    obtain ⟨hf, hfs⟩ := List.forall_mem_cons.mp h
    rw [List.cons_append, factorsShape_skip hf, ih hfs]

theorem exists_shape_of_factorsShape {chain : Option Shape} {fs : List (Expr α)} {t : Shape}
    (h : factorsShape chain fs = .ok t) : ∀ f ∈ fs, ∃ x, f.shape = .ok x := by
  induction fs generalizing chain with
  | nil => nofun
  | cons f fs ih =>
    obtain ⟨x, hx, h⟩ := factorsShape_cons h
    refine List.forall_mem_cons.mpr ⟨⟨x, hx⟩, ?_⟩
    rcases h with ⟨-, h⟩ | ⟨-, -, h⟩ | ⟨-, left, -, -, h⟩
    · exact ih h
    · exact ih h
    · exact ih h

/-! ## Chains cut in two -/

/-- A chain keeps the rows that it begins with, and its columns do not depend on them. -/
theorem factorsShape_rows {r k : Nat} {fs : List (Expr α)} {t : Shape} (h : factorsShape (some ⟨r, k⟩) fs = .ok t) :
    ∃ c, t = ⟨r, c⟩ ∧ ∀ r', factorsShape (some ⟨r', k⟩) fs = .ok ⟨r', c⟩ := by
  induction fs generalizing k with
  | nil =>
    simp only [factorsShape, Option.getD_some, Except.ok.injEq] at h
    exact ⟨k, h.symm, fun r' => by simp [factorsShape]⟩
  | cons f fs ih =>
    obtain ⟨x, hx, ⟨rfl, hrest⟩ | ⟨-, hn, -⟩ | ⟨hne, left, hl, hc, hrest⟩⟩ := factorsShape_cons h
    · obtain ⟨c, ht, hrows⟩ := ih hrest
      refine ⟨c, ht, fun r' => ?_⟩
      rw [factorsShape_skip hx]
      exact hrows r'
    · cases hn
    · cases hl
      obtain ⟨c, ht, hrows⟩ := ih hrest
      refine ⟨c, ht, fun r' => ?_⟩
      have hc' : Shape.cols ⟨r', k⟩ = x.rows := hc
      rw [factorsShape_link hx hne hc']
      exact hrows r'

/-- A chain that goes on after `left` is `left` times the chain on its own. -/
theorem factorsShape_some {left s t : Shape} {fs : List (Expr α)} (h : factorsShape (some left) fs = .ok t)
    (hs : factorsShape none fs = .ok s) : left.times? s = some t := by
  induction fs with
  | nil =>
    simp only [factorsShape, Option.getD_some, Option.getD_none, Except.ok.injEq] at h hs
    rw [← h, ← hs, Shape.times?_scalar_right]
  | cons f fs ih =>
    obtain ⟨x, hx, ⟨rfl, hrest⟩ | ⟨-, hn, -⟩ | ⟨hne, l, hl, hc, hrest⟩⟩ := factorsShape_cons h
    · rw [factorsShape_skip hx] at hs
      exact ih hrest hs
    · cases hn
    · cases hl
      rw [factorsShape_begin hx hne] at hs
      -- Both chains run through the same factors from the same column on.
      obtain ⟨c, rfl, hrows⟩ := factorsShape_rows hs
      rw [hrows left.rows] at hrest
      cases hrest
      exact Shape.times?_of_cols_eq hc

/-- Where a chain is cut, either nothing but single numbers stands before the cut, or a chain goes on. -/
theorem factorsShape_append {chain : Option Shape} {fs gs : List (Expr α)} {t : Shape}
    (h : factorsShape chain (fs ++ gs) = .ok t) :
    (factorsShape chain fs = .ok (chain.getD .scalar) ∧ factorsShape chain gs = .ok t) ∨
      ∃ left, factorsShape chain fs = .ok left ∧ factorsShape (some left) gs = .ok t := by
  induction fs generalizing chain with
  | nil => exact Or.inl ⟨by simp [factorsShape], h⟩
  | cons f fs ih =>
    obtain ⟨x, hx, ⟨rfl, hrest⟩ | ⟨hne, rfl, hrest⟩ | ⟨hne, left, rfl, hc, hrest⟩⟩ := factorsShape_cons h
    · rw [factorsShape_skip hx]
      exact ih hrest
    · rw [factorsShape_begin hx hne]
      rcases ih hrest with ⟨hfs, hgs⟩ | hcut
      · exact Or.inr ⟨x, hfs, hgs⟩
      · exact Or.inr hcut
    · rw [factorsShape_link hx hne hc]
      rcases ih hrest with ⟨hfs, hgs⟩ | hcut
      · exact Or.inr ⟨_, hfs, hgs⟩
      · exact Or.inr hcut

/-- The factors of two products side by side have the shape of their product. -/
theorem times?_of_append {fs gs : List (Expr α)} {s s' t : Shape} (hs : factorsShape none fs = .ok s)
    (hs' : factorsShape none gs = .ok s') (h : factorsShape none (fs ++ gs) = .ok t) : s.times? s' = some t := by
  rcases factorsShape_append h with ⟨hfs, hgs⟩ | ⟨left, hfs, hgs⟩
  · rw [hs] at hfs
    rw [hs'] at hgs
    cases hfs
    cases hgs
    exact Shape.times?_scalar_left s'
  · rw [hs] at hfs
    cases hfs
    exact factorsShape_some hgs hs'

/-- The shape of further factors is linked to that of the factors before, unless these are all numbers. -/
theorem factorsShape_after {chain : Option Shape} {fs : List (Expr α)} {s : Shape} (gs : List (Expr α))
    (h : factorsShape chain fs = .ok s) :
    s = chain.getD .scalar ∧ factorsShape chain (fs ++ gs) = factorsShape chain gs ∨
      factorsShape chain (fs ++ gs) = factorsShape (some s) gs := by
  induction fs generalizing chain with
  | nil =>
    cases h
    exact Or.inl ⟨rfl, rfl⟩
  | cons f fs ih =>
    have from_some {x : Shape} (hrest : factorsShape (some x) fs = .ok s) :
        factorsShape (some x) (fs ++ gs) = factorsShape (some s) gs := by
      rcases ih hrest with ⟨rfl, h⟩ | h
      · exact h
      · exact h
    rw [List.cons_append]
    obtain ⟨x, hx, ⟨rfl, hrest⟩ | ⟨hne, rfl, hrest⟩ | ⟨hne, left, rfl, hc, hrest⟩⟩ := factorsShape_cons h
    · rw [factorsShape_skip hx]
      exact ih hrest
    · rw [factorsShape_begin hx hne]
      exact Or.inr (from_some hrest)
    · rw [factorsShape_link hx hne hc]
      exact Or.inr (from_some hrest)

/-- Factors that have a shape can be linked to a value, or are refused at the first of them that is no
    number. -/
theorem factorsShape_behind {left t : Shape} {gs : List (Expr α)} (h : factorsShape none gs = .ok t) :
    (∃ u, left.times? t = some u ∧ factorsShape (some left) gs = .ok u) ∨
      left.cols ≠ t.rows ∧ ∃ r, factorsShape (some left) gs = .error (.dimensionMismatch .mul left r) ∧ r.rows = t.rows := by
  induction gs with
  | nil =>
    cases h
    exact Or.inl ⟨left, Shape.times?_scalar_right left, rfl⟩
  | cons f fs ih =>
    obtain ⟨x, hx, ⟨rfl, hrest⟩ | ⟨hne, -, hrest⟩ | ⟨-, _, hn, -⟩⟩ := factorsShape_cons h
    · rw [factorsShape_skip hx]
      exact ih hrest
    · obtain ⟨c, rfl, hrows⟩ := factorsShape_rows hrest
      by_cases hc : left.cols = x.rows
      · rw [factorsShape_link hx hne hc]
        exact Or.inl ⟨_, Shape.times?_of_cols_eq hc, hrows left.rows⟩
      · refine Or.inr ⟨hc, x, ?_, rfl⟩
        have hs : x.isScalar = false := by simpa [Shape.isScalar] using hne
        rw [factorsShape, hx, ok_bind, hs]
        simp only [Bool.false_eq_true, if_false]
        rw [if_neg hc]
        rfl
    · cases hn

/-! ## Numbers among the factors -/

section
variable [Scalar α]

theorem shape_ofMonomial (m : Monomial α) : (ofMonomial m).shape = .ok .scalar := by
  rcases ofMonomial_const_or_var m with ⟨v, hc⟩ | hc
  · exact hc ▸ rfl
  · exact hc ▸ rfl

theorem shape_collapse (e : Expr α) : e.collapse.shape = e.shape := by
  cases e with
  | var m => exact shape_ofMonomial m
  | _ => rfl

theorem factorsShape_splitFrom {chain : Option Shape} {v : α} {fs : List (Expr α)} :
    factorsShape chain (splitFrom v fs).2 = factorsShape chain fs := by
  induction fs generalizing v chain with
  | nil => rfl
  | cons f fs ih =>
    cases f with
    | const w => exact ih
    | var m => exact ih
    | _ => simp only [splitFrom, factorsShape, ih]

theorem shape_flipSign (e : Expr α) : e.flipSign.shape = e.shape := by cases e <;> rfl

theorem factorsShape_negFactors {chain : Option Shape} (fs : List (Expr α)) :
    factorsShape chain (negFactors fs) = factorsShape chain fs := by
  rcases negFactors_cases fs with ⟨xs, f, ys, rfl, -, hneg⟩ | ⟨-, hneg⟩
  · rw [hneg]
    exact factorsShape_congr (by simp [shape_flipSign])
  · rw [hneg]
    rfl

theorem shape_neg (e : Expr α) : e.neg.shape = e.shape := by
  induction e with
  | const v => rfl
  | var m => rfl
  | sum ts ih =>
    rw [neg, negAll_eq_map, shape, shape]
    exact termsShape_congr (by simpa using ih)
  | product fs => exact factorsShape_negFactors fs
  | matrix g => rfl

end

end Expr

end SymbolicAlgebra
