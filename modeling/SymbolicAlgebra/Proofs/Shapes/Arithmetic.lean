/-
  SymbolicAlgebra.Proofs.Shapes.Arithmetic — arithmetic on values that have shapes.

  Multiplication and division keep every node of a tree in shape, as addition does, and a product
  has the shape that one expects of its operands, unless it is zero (`mul_shapes`). A zero that
  stands for a matrix never becomes a part of a sum or a product: the terms of a product of sums are
  dropped when they come out as zero (`foldCross_shape`), and factors are never replaced.

  A quotient may have lost its shape, since a product that is divided may be multiplied again from
  a single number on; but each of its nodes has a shape (`div_shaped`).
-/

import SymbolicAlgebra.Proofs.Shapes.Addition
import SymbolicAlgebra.Binary64

namespace SymbolicAlgebra.Expr

variable {α : Type} [Scalar α]

/-! ## Multiplication -/

/-- What multiplication does to shapes. -/
def MulsShapes (a b c : Expr α) : Prop :=
  (Shaped a → Shaped b → Shaped c) ∧ ∀ s t, a.shape = .ok s → b.shape = .ok t → Fits (s.times? t) c

/-- A single number in front leaves the shape of the other operand. -/
theorem mulsShapes_of_scalar_left {a b c : Expr α} (ha : a.shape = .ok .scalar) (hshaped : Shaped a → Shaped b → Shaped c)
    (hfits : ∀ t, b.shape = .ok t → Fits (some t) c) : MulsShapes a b c := by
  refine ⟨hshaped, fun s t hs ht => ?_⟩
  cases hs.symm.trans ha
  rw [Shape.times?_scalar_left]
  exact hfits t ht

theorem mulsShapes_of_scalar_right {a b c : Expr α} (hb : b.shape = .ok .scalar) (hshaped : Shaped a → Shaped b → Shaped c)
    (hfits : ∀ s, a.shape = .ok s → Fits (some s) c) : MulsShapes a b c := by
  refine ⟨hshaped, fun s t hs ht => ?_⟩
  cases ht.symm.trans hb
  rw [Shape.times?_scalar_right]
  exact hfits s hs

/-- Two values side by side. -/
theorem mulsShapes_of_chain {a b c : Expr α} (h : chain a b = .ok c) : MulsShapes a b c := by
  refine ⟨Shaped.chain h, fun s t hs ht => ?_⟩
  obtain ⟨u, hu, rfl⟩ := checkedProduct_eq_ok h
  rw [← factorsShape_factors] at hs ht
  rw [times?_of_append hs ht hu]
  exact .of_shape hu

theorem shape_mulMonomials (m n : Monomial α) : (mulMonomials m n).shape = .ok .scalar := by
  have bare : factorsShape none [ofMonomial m.bare, ofMonomial n.bare] = .ok .scalar :=
    factorsShape_scalar (by simp [shape_ofMonomial])
  rcases mulMonomials_cases m n with ⟨-, hc⟩ | ⟨-, hc⟩ | ⟨-, hc⟩ | hc
  · rw [hc, shape_ofMonomial]
  · rw [hc, shape]
  · rw [hc]
    exact bare
  · rw [hc]
    exact bare

theorem Shaped.mulMonomials (m n : Monomial α) : Shaped (mulMonomials m n) := by
  refine .node (shape_mulMonomials m n) ?_
  rcases mulMonomials_cases m n with ⟨-, hc⟩ | ⟨-, hc⟩ | ⟨-, hc⟩ | hc
  · exact hc ▸ (Shaped.ofMonomial _).children
  · exact hc ▸ (Shaped.const 0).children
  · simp [hc, Expr.children]
  · simp [hc, Expr.children]

section
variable (zero : Scalar.nearZero (0 : α) = true)
include zero

/-- The terms of a product of sums stay in shape: what comes out as zero is dropped. -/
theorem foldCross_shape {s? : Option Shape} {t : Expr α} {ts us : List (Expr α)} (h : foldCross t ts = .ok us)
    (ht : Fits s? t) (hts : ∀ x ∈ ts, HasShape s? x) : ∀ u ∈ us, HasShape s? u := by
  rcases foldCross_cases h with ⟨-, rfl⟩ | ⟨hz, rfl⟩ | ⟨xs, x, ys, m, rfl, hm, hus⟩
  · exact hts
  · exact List.forall_mem_append.mpr ⟨hts, by simpa using ht.hasShape hz⟩
  · obtain ⟨hxs, hx⟩ := List.forall_mem_append.mp hts
    obtain ⟨hx, hys⟩ := List.forall_mem_cons.mp hx
    have hfits := (add_keepsShapes zero x t m hm).2 s? (Or.inr hx) ht
    rcases hus with ⟨hz, rfl⟩ | ⟨-, rfl⟩
    · exact List.forall_mem_append.mpr ⟨hxs, List.forall_mem_cons.mpr ⟨hfits.hasShape hz, hys⟩⟩
    · exact List.forall_mem_append.mpr ⟨hxs, hys⟩

theorem foldCross_shaped {t : Expr α} {ts us : List (Expr α)} (h : foldCross t ts = .ok us)
    (ht : Shaped t) (hts : ∀ x ∈ ts, Shaped x) : ∀ u ∈ us, Shaped u :=
  forall_foldCross (fun _ _ _ hm => (add_keepsShapes zero _ _ _ hm).1) h ht hts

/-- What is collected of the products of terms has their shape; where they have none, nothing is. -/
theorem crossTerms_shape {s? : Option Shape} {zs done : List (Expr α)}
    (h : zs.foldlM (fun done z => foldCross z done) [] = .ok done) (hzs : ∀ z ∈ zs, Fits s? z) : ∀ u ∈ done, HasShape s? u :=
  foldlM_keeps (P := fun done => ∀ u ∈ done, HasShape s? u) h (List.forall_mem_nil _)
    fun _ hdone z hz _ h => foldCross_shape zero h (hzs z hz) hdone

theorem crossTerms_shaped {zs done : List (Expr α)} (h : zs.foldlM (fun done z => foldCross z done) [] = .ok done)
    (hzs : ∀ z ∈ zs, Shaped z) : ∀ u ∈ done, Shaped u :=
  foldlM_keeps (P := fun done => ∀ u ∈ done, Shaped u) h (List.forall_mem_nil _)
    fun _ hdone z hz _ h => foldCross_shaped zero h (hzs z hz) hdone

/-- A cell of a product of grids. -/
theorem dot_shaped {ps : List (Expr α × Expr α)} {c d : Expr α}
    (h : Dot (fun x y z => x.mul y = .ok z ∧ MulsShapes x y z) ps c d) (hps : ∀ p ∈ ps, Shaped p.1 ∧ Shaped p.2)
    (hc : Shaped c) : Shaped d :=
  h.keeps (fun _ _ _ hm => (add_keepsShapes zero _ _ _ hm).1) (fun p hp _ hz => hz.2.1 (hps p hp).1 (hps p hp).2) hc

theorem mulsShapes_of_case {a b c : Expr α} (h : MulCase (fun x y z => x.mul y = .ok z ∧ MulsShapes x y z) a b c) :
    MulsShapes a b c := by
  cases h with
  | @grids g h cs hd hcs =>
    refine ⟨fun ha hb => Shaped.cells hcs fun p _ y hy => dot_shaped zero hy (fun q hq => ?_) (.const 0), ?_⟩
    · obtain ⟨hx, hy⟩ := List.of_mem_zip hq
      exact ⟨ha.children _ (Grid.mem_cells_of_mem_row hx),
        hb.children _ (Grid.mem_cells_of_mem_transpose (Grid.mem_cells_of_mem_row hy))⟩
    · intro s t hs ht
      cases hs
      cases ht
      rw [Shape.times?_of_cols_eq hd]
      exact .of_shape rfl
  | gridScalar _ hb hcs =>
    refine mulsShapes_of_scalar_right hb (fun ha hb => ?_) fun s hs => .of_shape hs
    exact Shaped.cells hcs fun x hx y hy => hy.2.1 (ha.children x hx) hb
  | scalarGrid _ ha hcs =>
    refine mulsShapes_of_scalar_left ha (fun ha hb => ?_) fun t ht => .of_shape ht
    exact Shaped.cells hcs fun x hx y hy => hy.2.1 ha (hb.children x hx)
  | besideGrid _ _ _ h => exact mulsShapes_of_chain h
  | gridBeside _ _ _ h => exact mulsShapes_of_chain h
  | number _ h =>
    obtain ⟨hshaped, hfits⟩ := (shape_laws zero).of_scale h
    exact mulsShapes_of_scalar_left rfl (fun _ => hshaped) hfits
  | monomialNumber =>
    refine mulsShapes_of_scalar_right rfl (fun _ _ => .ofMonomial _) fun s hs => ?_
    cases hs
    exact .of_shape (shape_ofMonomial _)
  | monomials =>
    refine mulsShapes_of_scalar_left rfl (fun _ _ => .mulMonomials _ _) fun t ht => ?_
    cases ht
    exact .of_shape (shape_mulMonomials _ _)
  | monomialProduct h =>
    refine mulsShapes_of_scalar_left rfl (fun _ hb => ?_) fun t ht => Fits.prependFactor zero h ht
    obtain ⟨t, ht⟩ := hb.shape
    exact Shaped.prependFactor h (.ofMonomial _) ht hb.children
  | productNumber =>
    refine mulsShapes_of_scalar_right rfl (fun ha _ => ?_) fun s hs => Fits.mulConstant zero hs
    obtain ⟨s, hs⟩ := ha.shape
    exact Shaped.mulConstant hs ha.children
  | @product fs b _ _ h => exact mulsShapes_of_chain (a := .product fs) h
  | intoRight _ hus h =>
    obtain ⟨hshaped, hfits⟩ := sumOf_shapes zero h
    refine ⟨fun ha hb => hshaped ?_, fun s t hs ht => hfits _ ?_⟩
    · exact forall_mem_right hus fun x hx y hy => hy.2.1 ha.collapse (hb.children x hx)
    · exact forall_mem_right hus fun x hx y hy => hy.2.2 s t (by rw [shape_collapse, hs]) ((shape_sum_eq_ok.mp ht).2 x hx)
  | intoLeft _ _ hus h =>
    obtain ⟨hshaped, hfits⟩ := sumOf_shapes zero h
    refine ⟨fun ha hb => hshaped ?_, fun s t hs ht => hfits _ ?_⟩
    · exact forall_mem_right hus fun x hx y hy => hy.2.1 (ha.children x hx) hb
    · exact forall_mem_right hus fun x hx y hy => hy.2.2 s t ((shape_sum_eq_ok.mp hs).2 x hx) ht
  | @sums ts us zs done hzs h =>
    have hdone : ∀ s t, (sum ts).shape = .ok s → (sum us).shape = .ok t → ∀ u ∈ done, HasShape (s.times? t) u := by
      intro s t hs ht
      refine crossTerms_shape zero h (forall_mem_right hzs fun p hp z hz => hz.2.2 s t ?_ ?_)
      · exact (shape_sum_eq_ok.mp hs).2 _ (List.mem_product.mp hp).1
      · exact (shape_sum_eq_ok.mp ht).2 _ (List.mem_product.mp hp).2
    refine ⟨fun ha hb => ?_, fun s t hs ht => Fits.ofTerms zero (hdone s t hs ht)⟩
    obtain ⟨s, hs⟩ := ha.shape
    obtain ⟨t, ht⟩ := hb.shape
    refine Shaped.ofTerms (crossTerms_shaped zero h (forall_mem_right hzs fun p hp z hz => hz.2.1 ?_ ?_)) (hdone s t hs ht)
    · exact ha.children _ (List.mem_product.mp hp).1
    · exact hb.children _ (List.mem_product.mp hp).2

theorem mul_shapes {a b c : Expr α} (h : a.mul b = .ok c) : MulsShapes a b c :=
  mul_induction (R := MulsShapes) (fun _ _ _ h => mulsShapes_of_case zero h) h

/-! ## Division -/

theorem divFactors_shaped {fs : List (Expr α)} {n : Monomial α} {c : Expr α} (h : divFactors fs n = .ok c)
    (hf : Shaped (.product fs)) : Shaped c := by
  rcases divFactors_cases h with ⟨r, -, h⟩ | ⟨xs, m, ys, q, rfl, hq, h⟩
  · exact Shaped.checkedProduct h (List.forall_mem_append.mpr ⟨hf.children, by simp⟩)
  · obtain ⟨r, -, hq⟩ := bind_eq_ok.mp hq
    cases pure_eq_ok.mp hq
    have hq : Shaped (mulMonomials m r) := .mulMonomials m r
    obtain ⟨hxs, hys⟩ := List.forall_mem_append.mp hf.children
    obtain ⟨-, hys⟩ := List.forall_mem_cons.mp hys
    rcases h with ⟨v, -, h⟩ | rfl
    · have hrest := List.forall_mem_append.mpr ⟨hxs, hys⟩
      exact foldlM_keeps h hq fun s hs x hx s' hs' => (mul_shapes zero hs').1 hs (hrest x hx)
    · obtain ⟨s, hs⟩ := hf.shape
      -- One number in the place of another.
      have hshapes : (xs ++ mulMonomials m r :: ys).map shape = (xs ++ .var m :: ys).map shape := by
        simp [shape_mulMonomials, shape]
      refine .product (s := s) ?_ (List.forall_mem_append.mpr ⟨hxs, List.forall_mem_cons.mpr ⟨hq, hys⟩⟩)
      rw [factorsShape_congr hshapes]
      exact hs

theorem div_shaped {a b c : Expr α} (h : a.div b = .ok c) : Shaped a → Shaped b → Shaped c := by
  refine div_induction (R := fun x y z => Shaped x → Shaped y → Shaped z) (fun a b c _ _ h ha hb => ?_) h
  cases h with
  | grid _ hcs => exact Shaped.cells hcs fun x hx y hy => hy.2 (ha.children x hx) hb
  | numbers => exact .const _
  | zeroNumber => exact .const _
  | numberMonomial => exact .ofMonomial _
  | monomialNumber => exact .ofMonomial _
  | monomials h =>
    obtain ⟨r, -, h⟩ := bind_eq_ok.mp h
    cases pure_eq_ok.mp h
    exact .mulMonomials _ _
  | productNumber =>
    obtain ⟨s, hs⟩ := ha.shape
    exact Shaped.mulConstant hs ha.children
  | productMonomial h => exact divFactors_shaped zero h ha
  | byProduct _ _ h => exact h.keeps ha.collapse fun g hg q q' hq ha => hq.2 ha (hb.children g hg)
  | sum _ hus h => exact (sumOf_shapes zero h).1 (forall_mem_right hus fun x hx y hy => hy.2 (ha.children x hx) hb)

end

/-! ## The program's numbers -/

/-- Arithmetic on values whose nodes all have shapes gives values whose nodes all have shapes, and
    the shape that one expects unless the value is the number zero. -/
theorem arithmetic_shapes {a b : Expr Float} {s t : Shape} (ha : Shaped a) (hb : Shaped b) (hs : a.shape = .ok s)
    (ht : b.shape = .ok t) :
    (∀ c, a.add b = .ok c → Shaped c ∧ (s = t → Fits (some s) c)) ∧
      (∀ c, a.sub b = .ok c → Shaped c ∧ (s = t → Fits (some s) c)) ∧
      (∀ c, a.mul b = .ok c → Shaped c ∧ Fits (s.times? t) c) ∧
      (∀ c, a.div b = .ok c → Shaped c) ∧
      Shaped a.neg ∧ a.neg.shape = .ok s := by
  have zero : Scalar.nearZero (0 : Float) = true := by decide
  have add : ∀ b c : Expr Float, Shaped b → b.shape = .ok t → a.add b = .ok c →
      Shaped c ∧ (s = t → Fits (some s) c) := by
    intro b c hb ht h
    obtain ⟨hshaped, hfits⟩ := add_keepsShapes zero a b c h
    exact ⟨hshaped ha hb, fun e => hfits (some s) (.of_shape hs) (.of_shape (by rw [ht, e]))⟩
  refine ⟨fun c h => add b c hb ht h, fun c h => add b.neg c hb.neg (by rw [shape_neg, ht]) h, fun c h => ?_,
    fun c h => div_shaped zero h ha hb, ha.neg, by rw [shape_neg, hs]⟩
  obtain ⟨hshaped, hfits⟩ := mul_shapes zero h
  exact ⟨hshaped ha hb, hfits s t hs ht⟩

/-- A row times a column is a single number, and goes into the cells of a grid. -/
theorem arithmetic_shapes_chain :
    let x : Expr Float := .ofName "x"
    let row : Expr Float := .matrix ⟨1, 2, [x, x]⟩
    let column : Expr Float := .matrix ⟨2, 1, [x, x]⟩
    ∃ c, (product [row, column]).mul row = .ok c ∧ Shaped c ∧ Fits (some ⟨1, 2⟩) c := by
  intro x row column
  have hrow : Shaped row := .matrix (by simp [x, ofName])
  have hcolumn : Shaped column := .matrix (by simp [x, ofName])
  have hchain : factorsShape none [row, column] = .ok .scalar := rfl
  have hmul : (product [row, column]).mul row = .ok (.matrix ⟨1, 2, [.product [row, column, x], .product [row, column, x]]⟩) := by
    cbv
  obtain ⟨-, -, hshapes, -⟩ := arithmetic_shapes (.product hchain (by simp [hrow, hcolumn])) hrow hchain rfl
  exact ⟨_, hmul, hshapes _ hmul⟩

end SymbolicAlgebra.Expr
