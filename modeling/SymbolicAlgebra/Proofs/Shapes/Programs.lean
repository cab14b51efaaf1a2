/-
  SymbolicAlgebra.Proofs.Shapes.Programs — shapes in the values that a program comes to.

  Reading a value keeps every node in shape. Putting a matrix in the place of a name does not: the
  name was a single number for whatever stands around it. The last step of a reading asks for the
  shape of each final value, and so of every node outside of cells (`shapedToCells_of_shape`); but it
  does not look into cells, where a sum of two matrices of different shapes can remain
  (`parse_leaves_cell_unshaped`).

  A single number in the place of a name changes no shape (`substitute_shapes`). So where nothing but
  single numbers is mentioned, every node of every final value has a shape (`parse_shaped`).
-/

import SymbolicAlgebra.Proofs.Dependencies
import SymbolicAlgebra.Proofs.Grammar.Values
import SymbolicAlgebra.Proofs.Shapes.Arithmetic

namespace SymbolicAlgebra

namespace Expr

variable {α : Type}

/-! ## Nodes outside of cells -/

/-- Every node that is not inside a cell has a shape. -/
inductive ShapedToCells : Expr α → Prop
  | node {e : Expr α} {s : Shape} : e.shape = .ok s → (e.kind ≠ .matrix → ∀ x ∈ e.children, ShapedToCells x) →
      ShapedToCells e

/-- The shape of a value asks for the shapes of all nodes that are not inside a cell. -/
theorem shapedToCells_of_shape {e : Expr α} {s : Shape} (h : e.shape = .ok s) : ShapedToCells e := by
  induction e generalizing s with
  | const v => exact .node h (by simp [children])
  | var m => exact .node h (by simp [children])
  | sum ts ih => exact .node h fun _ t ht => ih t ht ((shape_sum_eq_ok.mp h).2 t ht)
  | product fs ih =>
    refine .node h fun _ f hf => ?_
    obtain ⟨x, hx⟩ := exists_shape_of_factorsShape h f hf
    exact ih f hf hx
  | matrix g _ => exact .node h fun hk => absurd rfl hk

/-! ## Trees without grids -/

/-- There is no grid in the tree. -/
def Gridless (e : Expr α) : Prop := Everywhere ⟨fun _ => True, fun _ _ _ => False⟩ e

theorem Gridless.shaped {e : Expr α} (h : Gridless e) : Shaped e ∧ e.shape = .ok .scalar := by
  induction h with
  | const v => exact ⟨.const v, rfl⟩
  | var m => exact ⟨.var _, rfl⟩
  | sum _ ih =>
    have hs := shape_sum_eq_ok.mpr ⟨fun _ => rfl, fun t ht => (ih t ht).2⟩
    exact ⟨.sum hs fun t ht => (ih t ht).1, hs⟩
  | @product fs _ ih =>
    have hs : factorsShape none fs = .ok .scalar := factorsShape_scalar fun f hf => (ih f hf).2
    exact ⟨.product hs fun f hf => (ih f hf).1, hs⟩
  | matrix hg => exact hg.elim

theorem Gridless.eq_scalar {e : Expr α} {s : Shape} (h : Gridless e) (hs : e.shape = .ok s) : s = .scalar := by
  rw [h.shaped.2] at hs
  cases hs
  rfl

theorem Gridless.factors_scalar {e : Expr α} (h : Gridless e) : ∀ f ∈ e.factors, f.shape = .ok .scalar :=
  fun f hf => (Gridless.shaped (Everywhere.factors h f hf)).2

variable [Scalar α]

theorem gridless_kept : (⟨fun _ => True, fun _ _ _ => False⟩ : Condition α).Kept where
  neg h := h
  bare h := h
  quantity _ h := h
  power _ _ _ h _ := h
  zip h _ := h
  mul h _ := h

theorem gridless_reciprocal : (⟨fun _ => True, fun _ _ _ => False⟩ : Condition α).Reciprocal := fun _ _ h => h

/-- Division brings no grid into a tree, whatever is divided by: a grid is no divisor. -/
theorem div_gridless {a b c : Expr α} (h : a.div b = .ok c) : Gridless a → Gridless c := by
  have hP := gridless_kept (α := α)
  have hr := gridless_reciprocal (α := α)
  refine div_induction (R := fun a _ c => Gridless a → Gridless c) (fun a b c _ _ h ha => ?_) h
  cases h with
  | grid => exact (Everywhere.matrix_iff.mp ha).1.elim
  | numbers => exact .const _
  | zeroNumber => exact .const _
  | numberMonomial => exact .ofMonomial fun _ _ => trivial
  | monomialNumber => exact .ofMonomial fun _ _ => trivial
  | monomials h => exact .divMonomials hP hr h trivial trivial
  | productNumber => exact .mulConstant (Everywhere.product_iff.mp ha)
  | productMonomial h => exact .divFactors hP hr h (Everywhere.product_iff.mp ha) trivial
  | byProduct _ _ h => exact h.keeps (P := Gridless) (Everywhere.collapse ha) fun _ _ _ _ hq => hq.2
  | sum _ hus h => exact .sumOf hP h (forall_mem_right hus fun t ht u hu => hu.2 (Everywhere.sum_iff.mp ha t ht))

/-! ## Single numbers in the place of names -/

section
variable (zero : Scalar.nearZero (0 : α) = true)
include zero

/-- A product of single numbers is one. -/
theorem mul_scalars {a b c : Expr α} (h : a.mul b = .ok c) (ha : Shaped a ∧ a.shape = .ok .scalar)
    (hb : Shaped b ∧ b.shape = .ok .scalar) : Shaped c ∧ c.shape = .ok .scalar := by
  obtain ⟨hshaped, hfits⟩ := mul_shapes zero h
  refine ⟨hshaped ha.1 hb.1, ?_⟩
  rcases hfits _ _ ha.2 hb.2 with ⟨v, rfl, -⟩ | ⟨s, hs, hc⟩
  · rfl
  · cases hs
    exact hc

theorem expand_shapes {m : Monomial α} {v c : Expr α} (h : expand m v = .ok c) (hv : Shaped v ∧ v.shape = .ok .scalar) :
    Shaped c ∧ c.shape = .ok .scalar := by
  obtain ⟨-, ⟨-, rfl⟩ | ⟨n, p, q, -, hp, hq, hc⟩⟩ := expand_eq_ok h
  · exact ⟨.const _, rfl⟩
  · rw [mulTimes_eq_foldlM] at hp
    have hp : Shaped p ∧ p.shape = .ok .scalar :=
      foldlM_keeps (P := fun e => Shaped e ∧ e.shape = .ok .scalar) hp hv fun s hs x hx s' hmul =>
        mul_scalars zero hmul hs (List.eq_of_mem_replicate hx ▸ hv)
    have hq : Shaped q ∧ q.shape = .ok .scalar := by
      rcases hq with ⟨-, rfl⟩ | ⟨-, hq⟩
      · exact hp
      · exact (div_gridless hq (.const 1)).shaped
    rcases hc with ⟨-, rfl⟩ | hc
    · exact hq
    · exact mul_scalars zero hc ⟨.const _, rfl⟩ hq

/-- A single number in the place of a name keeps every node in shape, and the shape. -/
theorem substitute_shapes {e v c : Expr α} {name : String} (h : substitute e name v = .ok c)
    (hv : Shaped v ∧ v.shape = .ok .scalar) (he : Shaped e) : Shaped c ∧ c.shape = e.shape := by
  induction e generalizing c with
  | const w =>
    cases substitute_const.mp h
    exact ⟨he, rfl⟩
  | var m =>
    rcases substitute_var h with ⟨-, h⟩ | ⟨-, rfl⟩
    · exact expand_shapes zero h hv
    · exact ⟨he, rfl⟩
  | sum ts ih =>
    obtain ⟨us, hus, rfl⟩ := substitute_sum.mp h
    have parts : ∀ t ∈ ts, ∀ u, substitute t name v = .ok u → Shaped u ∧ u.shape = t.shape :=
      fun t ht u hu => ih t ht hu (he.children t ht)
    have hshape : (sum us).shape = (sum ts).shape :=
      termsShape_congr (map_eq_map_of_mem hus fun t ht u hu => (parts t ht u hu).2)
    obtain ⟨s, hs⟩ := he.shape
    exact ⟨.sum (by rw [hshape, hs]) (forall_mem_right hus fun t ht u hu => (parts t ht u hu).1), hshape⟩
  | product fs ih =>
    obtain ⟨gs, hgs, rfl⟩ := substitute_product.mp h
    have parts : ∀ f ∈ fs, ∀ g, substitute f name v = .ok g → Shaped g ∧ g.shape = f.shape :=
      fun f hf g hg => ih f hf hg (he.children f hf)
    have hshape : (product gs).shape = (product fs).shape :=
      factorsShape_congr (map_eq_map_of_mem hgs fun f hf g hg => (parts f hf g hg).2)
    obtain ⟨s, hs⟩ := he.shape
    exact ⟨.node (by rw [hshape, hs]) (forall_mem_right hgs fun f hf g hg => (parts f hf g hg).1), hshape⟩
  | matrix g ih =>
    obtain ⟨cells, hcells, rfl⟩ := substitute_matrix.mp h
    exact ⟨.cells hcells fun x hx y hy => (ih x hx hy (he.children x hx)).1, rfl⟩

/-! ## Tidying -/

theorem recombine_shaped {fs : List (Expr α)} {c : Expr α} (h : recombine fs = .ok c) (hf : ∀ f ∈ fs, Shaped f) :
    Shaped c := by
  rcases recombine_eq_ok h with ⟨-, rfl⟩ | ⟨-, rfl⟩ | ⟨first, more, p, hr, hp, h⟩
  · exact .const 0
  · exact .const _
  · have hs := Shaped.splitFrom (v := 1) hf
    rw [show (splitFrom 1 fs).2 = first :: more from hr] at hs
    obtain ⟨hfirst, hmore⟩ := List.forall_mem_cons.mp hs
    have hp := foldlM_keeps hp hfirst fun s hs x hx s' hs' => (mul_shapes zero hs').1 hs (hmore x hx)
    exact (mul_shapes zero h).1 (.const _) hp

theorem normalize_shaped {e c : Expr α} (h : normalize e = .ok c) (he : Shaped e) : Shaped c := by
  induction e generalizing c with
  | const v =>
    cases normalize_const.mp h
    exact he
  | var m =>
    cases normalize_var.mp h
    exact .ofMonomial m
  | sum ts =>
    cases normalize_sum.mp h
    exact he
  | product fs ih =>
    obtain ⟨gs, hgs, h⟩ := normalize_product.mp h
    exact recombine_shaped zero h (forall_mem_spliced hgs fun f hf g hg => (ih f hf hg (he.children f hf)).factors)
  | matrix g ih =>
    obtain ⟨cells, hcells, rfl⟩ := normalize_matrix.mp h
    exact .cells hcells fun x hx y hy => ih x hx hy (he.children x hx)

/-! ## Values as they are written -/

theorem shaped_invariant : ParseTree.Invariant (α := α) Shaped where
  number v := .const v
  name n := .var _
  matrix _ h := .matrix h
  transpose h := .matrix fun c hc => h.children c (Grid.mem_cells_of_mem_transpose hc)
  neg h := h.neg
  apply := by
    intro op a b c ha hb h
    cases op with
    | add => exact (add_keepsShapes zero a b c h).1 ha hb
    | sub => exact (add_keepsShapes zero a b.neg c h).1 ha hb.neg
    | mul => exact (mul_shapes zero h).1 ha hb
    | div => exact div_shaped zero h ha hb

end

end Expr

/-! ## Programs -/

namespace Program

open SymbolicAlgebra.Expr

variable {α : Type} [Scalar α]

/-- What the pass makes of values while every name that is mentioned stands for a single number: the
    nodes keep their shapes, and so do the values. -/
structure InShape (ds : List (Definition α)) (name : String) (value : Expr α) : Prop where
  shaped : Shaped value
  shape : ∃ d ∈ ds, d.name = name ∧ value.shape = d.value.shape
  mentioned : ∀ x ∈ value.freeNames, ∃ name, Mentions ds name x

theorem resolve_inShape (zero : Scalar.nearZero (0 : α) = true) {ds es : List (Definition α)}
    (h : (resolve ds).result = .ok es) (hds : ∀ d ∈ ds, Shaped d.value)
    (scalar : ∀ d ∈ ds, (∃ name, Mentions ds name d.name) → d.value.shape = .ok .scalar) :
    ∀ e ∈ es, InShape ds e.name e.value := by
  refine (resolve_induction (I := fun _ => InShape ds) h ?_ ?_ ?_).2
  · exact fun d hd => ⟨hds d hd, ⟨d, hd, rfl, rfl⟩, fun x hx => ⟨d.name, d, hd, rfl, hx⟩⟩
  · exact fun _ _ _ _ _ _ hv _ => hv
  · intro _ name value target v v' hvalue hv _ hmem hsub
    -- The name that is replaced is mentioned, so what it stands for is a single number.
    obtain ⟨d, hd, rfl, hshape⟩ := hvalue.shape
    have hscalar := scalar d hd (hv.mentioned _ hmem)
    obtain ⟨hs, hv'⟩ := substitute_shapes zero hsub ⟨hvalue.shaped, by rw [hshape, hscalar]⟩ hv.shaped
    refine ⟨hs, ?_, fun x hx => ?_⟩
    · rw [hv']
      exact hv.shape
    · rcases freeNames_substitute hsub hx with ⟨hx, -⟩ | hx
      · exact hv.mentioned x hx
      · exact hvalue.mentioned x hx

/-- After a successful reading every node that is not inside a cell has a shape; and every node has
    one if the definitions that are mentioned are written as single numbers. -/
theorem parse_shaped (zero : Scalar.nearZero (0 : α) = true) {source : String} {p : Program α}
    (h : parse source = .ok p) :
    (∀ name value, (name, value) ∈ p.definitions → ShapedToCells value) ∧
      ∀ ds : List (Definition α), written source = .ok ds →
        (∀ d ∈ ds, (∃ name, Mentions ds name d.name) → d.value.shape = .ok .scalar) →
          ∀ name value, (name, value) ∈ p.definitions → Shaped value := by
  obtain ⟨ds, es, hds, hes, hps⟩ := parse_eq_ok.mp h
  constructor
  · intro name value hp
    refine forall_mem_right (Q := fun r => ShapedToCells r.2) hps (fun e _ r hr => ?_) (name, value) hp
    obtain ⟨s, -, -, hs⟩ := finish_eq_ok.mp hr
    exact shapedToCells_of_shape hs
  · intro ds' hds' scalar name value hp
    rw [hds] at hds'
    cases hds'
    have hread := written_invariant (shaped_invariant zero) hds
    have hmem : ∀ d ∈ sortByName ds, Shaped d.value := fun d hd => hread d (mem_sortByName.mp hd)
    have hes := resolve_inShape zero hes hmem fun d hd hm => by
      refine scalar d (mem_sortByName.mp hd) ?_
      obtain ⟨n, d', hd', hn⟩ := hm
      exact ⟨n, d', mem_sortByName.mp hd', hn⟩
    refine forall_mem_right (Q := fun r => Shaped r.2) hps (fun e he r hr => ?_) (name, value) hp
    obtain ⟨s, -, hv, -⟩ := finish_eq_ok.mp hr
    exact normalize_shaped zero hv (hes e he).shaped

theorem parse_shaped_number : Shaped (.matrix ⟨1, 2, [.const 3, .ofName "y"]⟩ : Expr ℚ) := by
  have h : parse "A=[x,y];x=3;" =
      .ok (⟨[("A", .matrix ⟨1, 2, [.const 3, .ofName "y"]⟩), ("x", .const 3)]⟩ : Program ℚ) := by cbv
  have hw : written "A=[x,y];x=3;" = .ok [
      ⟨"A", ⟨0, 1⟩, .matrix ⟨1, 2, [.ofName "x", .ofName "y"]⟩, ⟨0, 8⟩⟩,
      (⟨"x", ⟨8, 9⟩, .const 3, ⟨8, 12⟩⟩ : Definition ℚ)] := by cbv
  refine (parse_shaped (by decide) h).2 _ hw ?_ "A" _ List.mem_cons_self
  -- Only `x` is mentioned, which is the number 3.
  refine List.forall_mem_cons.mpr ⟨?_, List.forall_mem_cons.mpr ⟨fun _ => rfl, by simp⟩⟩
  rintro ⟨name, d, hd, -, hA⟩
  simp only [List.mem_cons, List.not_mem_nil, or_false] at hd
  rcases hd with rfl | rfl
  · revert hA
    decide
  · revert hA
    decide

/-- A sum of two matrices of different shapes stays in a cell. On its own the sum is refused. -/
theorem parse_leaves_cell_unshaped : ∃ p : Program ℚ, parse "A=[1,0;0,1];B=[1,2,3];C=[A+B];" = .ok p ∧
    (∃ value, ("C", value) ∈ p.definitions ∧ ¬ Shaped value) ∧
    (parse "A=[1,0;0,1];B=[1,2,3];C=A+B;" : Except Problem (Program ℚ)) =
      .error ⟨.invalidExpression (.dimensionMismatch .add ⟨2, 2⟩ ⟨1, 3⟩), [⟨22, 28⟩]⟩ := by
  let A : Expr ℚ := .matrix ⟨2, 2, [.const 1, .const 0, .const 0, .const 1]⟩
  let B : Expr ℚ := .matrix ⟨1, 3, [.const 1, .const 2, .const 3]⟩
  have h : parse "A=[1,0;0,1];B=[1,2,3];C=[A+B];" =
      .ok (⟨[("A", A), ("B", B), ("C", .matrix ⟨1, 1, [.sum [A, B]]⟩)]⟩ : Program ℚ) := by cbv
  refine ⟨_, h, ⟨.matrix ⟨1, 1, [.sum [A, B]]⟩, by simp, fun hs => ?_⟩, by cbv⟩
  obtain ⟨s, hs⟩ := (hs.children (.sum [A, B]) (by simp [children])).shape
  cases hs

end Program

end SymbolicAlgebra
