/-
  SymbolicAlgebra.Proofs.Forms — conditions on the lists of terms and of factors in a tree.

  A `Form` says how many terms a sum may have and which factors a product may have, and `Formed` that
  all sums and products of a tree, those in cells included, are so. Operations make new lists of
  factors out of old ones in few ways. Those of negation, addition and scaling are listed in
  `Form.Kept`. Multiplication is distributed over the sums and the grids of both operands and puts the
  factors of what it finds in them (`Outer`) behind one another; what is asked of these may be more
  than the form, and more on the right than on the left (`Form.Joins`). Division takes a monomial out
  of a product and may multiply what is left of it by a number; a form has to say itself that this is
  kept (`Form.Divides`).

  A form that allows these is kept by the operations: `Formed.neg`, `.add`, `.sub`, `.mul`, `.div`.
-/

import SymbolicAlgebra.Proofs.Everywhere
import SymbolicAlgebra.Proofs.Depth

namespace SymbolicAlgebra

/-- How many terms a sum may have, and which factors a product. -/
structure Form (α : Type) where
  terms : Nat → Prop
  factors : List (Expr α) → Prop

namespace Expr

variable {α : Type}

/-- All sums and products of the tree are of the form. -/
inductive Formed (F : Form α) : Expr α → Prop
  | const (v : α) : Formed F (.const v)
  | var (m : Monomial α) : Formed F (.var m)
  | sum {ts : List (Expr α)} : F.terms ts.length → (∀ t ∈ ts, Formed F t) → Formed F (.sum ts)
  | product {fs : List (Expr α)} : F.factors fs → (∀ f ∈ fs, Formed F f) → Formed F (.product fs)
  | matrix {g : Grid (Expr α)} : (∀ c ∈ g.cells, Formed F c) → Formed F (.matrix g)

namespace Formed

variable {F : Form α} {e : Expr α} {fs ts : List (Expr α)}

theorem children (h : Formed F e) : ∀ c ∈ e.children, Formed F c := by
  cases h with
  | sum _ h => exact h
  | product _ h => exact h
  | matrix h => exact h
  | _ => exact List.forall_mem_nil _

theorem of_sum (h : Formed F (.sum ts)) : F.terms ts.length := by
  cases h
  assumption

theorem of_product (h : Formed F (.product fs)) : F.factors fs := by
  cases h
  assumption

theorem of_occurs {x : Expr α} (ho : Occurs x e) (h : Formed F e) : Formed F x := by
  induction ho with
  | root => exact h
  | child hc _ ih => exact ih (h.children _ hc)

/-- A tree is of a form when the sums and the products that occur in it are. -/
theorem iff_occurs : Formed F e ↔
    (∀ ts, Occurs (.sum ts) e → F.terms ts.length) ∧ ∀ fs, Occurs (.product fs) e → F.factors fs := by
  constructor
  · exact fun h => ⟨fun ts ho => (h.of_occurs ho).of_sum, fun fs ho => (h.of_occurs ho).of_product⟩
  · intro h
    induction e with
    | const v => exact .const v
    | var m => exact .var m
    | sum ts ih =>
      exact .sum (h.1 ts .root) fun t ht => ih t ht ⟨fun us ho => h.1 us (.child ht ho), fun fs ho => h.2 fs (.child ht ho)⟩
    | product fs ih =>
      exact .product (h.2 fs .root) fun f hf => ih f hf ⟨fun us ho => h.1 us (.child hf ho), fun gs ho => h.2 gs (.child hf ho)⟩
    | matrix g ih =>
      exact .matrix fun c hc => ih c hc ⟨fun us ho => h.1 us (.child hc ho), fun gs ho => h.2 gs (.child hc ho)⟩

theorem terms (h : Formed F e) : ∀ t ∈ e.terms, Formed F t := by
  cases e with
  | sum ts => exact h.children
  | _ => exact List.forall_mem_singleton.mpr h

theorem factors (h : Formed F e) : ∀ f ∈ e.factors, Formed F f := by
  cases e with
  | product fs => exact h.children
  | _ => exact List.forall_mem_singleton.mpr h

theorem checkedProduct {c : Expr α} (h : Expr.checkedProduct fs = .ok c) (hform : F.factors fs)
    (hfs : ∀ f ∈ fs, Formed F f) : Formed F c := by
  obtain ⟨s, -, rfl⟩ := checkedProduct_eq_ok h
  exact .product hform hfs

theorem cells {R : Expr α → Expr α → Prop} {xs ys : List (Expr α)} (h : List.Forall₂ R xs ys)
    (hR : ∀ x ∈ xs, ∀ y, R x y → Formed F y) {r c : Nat} : Formed F (.matrix ⟨r, c, ys⟩) :=
  .matrix (forall_mem_right h hR)

end Formed

end Expr

variable {α : Type} [Scalar α]

/-! ## Numbers in front of factors -/

/-- Negation, addition and scaling keep the form. The number in front of factors changes, is taken
    away or comes in front of factors that have none, and numbers are taken out of like products. -/
structure Form.Kept (F : Form α) : Prop where
  terms {n : Nat} : 2 ≤ n → F.terms n
  neg {fs : List (Expr α)} : F.factors fs → F.factors (Expr.negFactors fs)
  change {v w : α} {fs : List (Expr α)} : F.factors (.const v :: fs) → F.factors (.const w :: fs)
  drop {v : α} {fs : List (Expr α)} : 2 ≤ fs.length → F.factors (.const v :: fs) → F.factors fs
  put {v : α} {fs : List (Expr α)} : (∀ f ∈ fs.head?, f.kind ≠ .constant) → F.factors fs → F.factors (.const v :: fs)
  split {v : α} {fs : List (Expr α)} : 2 ≤ (Expr.splitFrom v fs).2.length → F.factors fs →
    F.factors (Expr.splitFrom v fs).2

namespace Expr

theorem kind_splitFrom (v : α) (fs : List (Expr α)) : ∀ f ∈ (splitFrom v fs).2, f.kind ≠ .constant := by
  induction fs generalizing v with
  | nil => exact List.forall_mem_nil _
  | cons f fs ih =>
    cases f with
    | const w => exact ih _
    | _ => exact List.forall_mem_cons.mpr ⟨nofun, ih _⟩

omit [Scalar α] in
theorem kind_ne_constant {e : Expr α} {s : Shape} (hs : e.shape = .ok s) (hne : s ≠ .scalar) : e.kind ≠ .constant := by
  cases e with
  | const v =>
    cases hs
    exact absurd rfl hne
  | _ => nofun

/-- A call and one within some bound come out alike. -/
theorem Calls.exists_add_eq_ok {a b c : Expr α} (h : a.add b = .ok c) : ∃ n, (upTo n).add a b = .ok c :=
  ⟨2 * (a.weight + b.weight), ((enough_unbounded (α := α) _).add le_rfl).1 ▸ unbounded_add h⟩

theorem Calls.exists_scale_eq_ok {v : α} {e c : Expr α} (h : Expr.scale v e = .ok c) : ∃ n, (upTo n).scale v e = .ok c :=
  ⟨2 * e.weight + 1, ((enough_unbounded (α := α) _).scale le_rfl).1 ▸ lift_eq_ok.mpr h⟩

namespace Formed

variable {F : Form α} {e : Expr α} {fs ts : List (Expr α)}

theorem ofMonomial (m : Monomial α) : Formed F (ofMonomial m) := by
  rcases ofMonomial_const_or_var m with ⟨v, h⟩ | h
  · exact h ▸ .const v
  · exact h ▸ .var m

theorem collapse (h : Formed F e) : Formed F e.collapse := by
  cases e with
  | var m => exact ofMonomial m
  | _ => exact h

theorem flipSign (h : Formed F e) : Formed F e.flipSign := by
  cases e with
  | const v => exact .const _
  | var m => exact .var _
  | _ => exact h

theorem splitFrom {v : α} (h : ∀ f ∈ fs, Formed F f) : ∀ f ∈ (splitFrom v fs).2, Formed F f :=
  forall_splitFrom (fun _ _ => .var _) h

theorem ofFactors (hform : 2 ≤ fs.length → F.factors fs) (h : ∀ f ∈ fs, Formed F f) : Formed F (ofFactors fs) := by
  rcases ofFactors_cases fs with ⟨-, hc⟩ | ⟨f, rfl, -⟩ | ⟨hlength, hc⟩
  · exact hc ▸ .const 1
  · exact h f (List.mem_singleton.mpr rfl)
  · exact hc ▸ .product (hform hlength) h

variable (hF : F.Kept)
include hF

theorem pair {a b c : Expr α} (h : Expr.pair a b = .ok c) (ha : Formed F a) (hb : Formed F b) : Formed F c := by
  obtain ⟨s, -, -, rfl⟩ := pair_eq_ok h
  exact .sum (hF.terms le_rfl) (List.forall_mem_cons.mpr ⟨ha, List.forall_mem_singleton.mpr hb⟩)

theorem ofTerms (h : ∀ t ∈ ts, Formed F t) : Formed F (ofTerms ts) := by
  rcases ofTerms_cases ts with ⟨-, hc⟩ | ⟨t, rfl, -⟩ | ⟨hlength, hc⟩
  · exact hc ▸ .const 0
  · exact h t (List.mem_singleton.mpr rfl)
  · exact hc ▸ .sum (hF.terms hlength) h

theorem mulConstant {v : α} (hform : F.factors fs) (h : ∀ f ∈ fs, Formed F f) : Formed F (mulConstant v fs) := by
  rcases mulConstant_cases v fs with ⟨-, hc⟩ | ⟨-, hc⟩ | ⟨w, rest, rfl, hc⟩ | ⟨hhead, hc⟩
  · exact hc ▸ .const 0
  · exact hc ▸ .product hform h
  · obtain ⟨-, hrest⟩ := List.forall_mem_cons.mp h
    rcases hc with ⟨-, hc⟩ | hc
    · exact hc ▸ ofFactors (fun hlength => hF.drop hlength hform) hrest
    · exact hc ▸ .product (hF.change hform) (List.forall_mem_cons.mpr ⟨.const _, hrest⟩)
  · exact hc ▸ .product (hF.put hhead hform) (List.forall_mem_cons.mpr ⟨.const v, h⟩)

theorem neg (h : Formed F e) : Formed F e.neg := by
  induction h with
  | const v => exact .const _
  | var m => exact .var _
  | sum hn _ ih =>
    rw [Expr.neg, negAll_eq_map]
    exact .sum (by rwa [List.length_map]) (List.forall_mem_map.mpr ih)
  | product hform h _ => exact .product (hF.neg hform) (forall_negFactors (fun _ => flipSign) (.const _) h)
  | matrix _ ih =>
    rw [Expr.neg, negAll_eq_map]
    exact .matrix (List.forall_mem_map.mpr ih)

/-! ## Addition and scaling -/

section
variable {call : Calls α}
  (hcall : call.Obeys (fun a b c => Formed F a → Formed F b → Formed F c) (fun _ => True) fun _ e c => Formed F e → Formed F c)
include hcall

theorem addToSum {b c : Expr α} (h : call.addToSum ts b = .ok c) (hts : ∀ t ∈ ts, Formed F t) (hb : Formed F b) :
    Formed F c := by
  obtain ⟨s, us, -, -, hus, rfl⟩ := Calls.addToSum_eq_ok h
  refine ofTerms hF (foldlM_keeps (P := fun ts => ∀ t ∈ ts, Formed F t) hus hts fun ts hts t ht ts' hts' => ?_)
  exact Calls.forall_addTerm (fun _ _ _ hm => hcall.add hm) hts' hts (hb.terms t ht)

/-- Like products come out as their factors without numbers, behind one number. -/
theorem scaleFactors {v : α} {c : Expr α} (h : call.scaleFactors v fs = .ok c) (hnumbers : ∀ f ∈ fs, f.kind ≠ .constant)
    (hform : 2 ≤ fs.length → F.factors fs) (hfs : ∀ f ∈ fs, Formed F f) : Formed F c := by
  rcases Calls.scaleFactors_cases h with ⟨-, rfl⟩ | ⟨-, ⟨-, rfl⟩ | ⟨f, rfl, hc⟩ | ⟨hlength, hc⟩⟩
  · exact .const 0
  · exact .const v
  · have hf := hfs f (List.mem_singleton.mpr rfl)
    rcases Calls.scaleFactor_cases hc with h | ⟨g, rfl, ⟨-, rfl⟩ | ⟨-, rfl⟩ | ⟨cs, hcs, rfl⟩⟩
    · exact hcall.scale h hf
    · exact hf
    · exact neg hF hf
    · exact cells hcs fun x hx y hy => hcall.scale hy (hf.children x hx)
  · rcases hc with ⟨-, rfl⟩ | rfl
    · exact .product (hform hlength) hfs
    · exact .product (hF.put (fun f hf => hnumbers f (List.mem_of_mem_head? hf)) (hform hlength))
        (List.forall_mem_cons.mpr ⟨.const v, hfs⟩)

theorem addCase {a b c : Expr α} (h : Calls.AddCase call a b c) (ha : Formed F a) (hb : Formed F b) : Formed F c := by
  cases h with
  | grids _ hcs =>
    exact .matrix (forall_mem_right hcs fun p hp y hy =>
      hcall.add hy (ha.children _ (List.of_mem_zip hp).1) (hb.children _ (List.of_mem_zip hp).2))
  | gridScalar _ _ hcs => exact cells hcs fun x hx y hy => hcall.add hy (ha.children x hx) hb
  | scalarGrid _ _ hcs => exact cells hcs fun x hx y hy => hcall.add hy ha (hb.children x hx)
  | zeroLeft => exact hb
  | zeroRight => exact ha.collapse
  | numbers => exact .const _
  | monomials => exact ofMonomial _
  | sumLeft _ h => exact addToSum hF hcall h ha.children hb
  | sumRight _ _ h => exact addToSum hF hcall h hb.children ha.collapse
  | products h =>
    rcases Calls.addProducts_cases h with h | ⟨-, h⟩
    · exact pair hF h ha hb
    · exact scaleFactors hF hcall h (kind_splitFrom 1 _) (fun hlength => hF.split hlength ha.of_product)
        (splitFrom ha.children)
  | beside h => exact pair hF h ha.collapse hb

theorem scaleCase {v : α} {c : Expr α} (h : Calls.ScaleCase call v e c) (he : Formed F e) : Formed F c := by
  cases h with
  | grid hcs => exact cells hcs fun x hx y hy => hcall.scale hy (he.children x hx)
  | zero => exact .const 0
  | one => exact he
  | minusOne => exact neg hF he
  | number => exact .const _
  | monomial => exact ofMonomial _
  | sum hus h =>
    have hus := forall_mem_right hus fun x hx y hy => hcall.scale hy (he.children x hx)
    exact Calls.keeps_sumOf (.const 0) (fun _ _ _ hm => hcall.add hm) h hus
  | product => exact mulConstant hF he.of_product he.children

end

theorem obeys_upTo (n : Nat) : (Calls.upTo n).Obeys (fun a b c => Formed F a → Formed F b → Formed F c) (fun _ => True)
    fun _ e c => Formed F e → Formed F c :=
  Calls.obeys_upTo (fun hcall h => addCase hF hcall h) (fun _ _ => trivial) (fun hcall h => scaleCase hF hcall h) n

variable {a b c : Expr α}

theorem add (h : a.add b = .ok c) (ha : Formed F a) (hb : Formed F b) : Formed F c := by
  obtain ⟨n, h⟩ := Calls.exists_add_eq_ok h
  exact (obeys_upTo hF n).add h ha hb

theorem sub (h : a.sub b = .ok c) (ha : Formed F a) (hb : Formed F b) : Formed F c := add hF h ha (neg hF hb)

theorem scale {v : α} (h : Expr.scale v e = .ok c) (he : Formed F e) : Formed F c := by
  obtain ⟨n, h⟩ := Calls.exists_scale_eq_ok h
  exact (obeys_upTo hF n).scale h he

theorem sumOf (h : Expr.sumOf ts = .ok c) (hts : ∀ t ∈ ts, Formed F t) : Formed F c :=
  keeps_sumOf (.const 0) (fun _ _ _ hm => add hF hm) h hts

/-! ## Multiplication -/

/-- A number goes in front of what it is multiplied by. -/
theorem mul_number {v : α} (h : Expr.mul (.const v) b = .ok c) (hb : Formed F b) : Formed F c := by
  refine mul_induction (R := fun a b c => a.kind = .constant → Formed F b → Formed F c) (fun a b c h hk hb => ?_) h rfl hb
  cases h with
  | scalarGrid _ _ hcs => exact cells hcs fun x hx y hy => hy.2 hk (hb.children x hx)
  | gridBeside _ hs hne => exact absurd hk (kind_ne_constant hs hne)
  | number _ h => exact scale hF h hb
  | intoRight hk' =>
    rw [hk] at hk'
    rcases hk' with hk' | hk' <;> cases hk'
  | _ => cases hk

end Formed

end Expr

/-! ## Operands -/

namespace Expr

variable {S : Expr α → Prop} {e : Expr α} {ts : List (Expr α)}

/-- The tree itself, or a part that is reached through sums and grids only, which a multiplication
    is distributed over. -/
inductive Outer (x : Expr α) : Expr α → Prop
  | root : Outer x x
  | term {t : Expr α} {ts : List (Expr α)} : t ∈ ts → Outer x t → Outer x (.sum ts)
  | cell {c : Expr α} {g : Grid (Expr α)} : c ∈ g.cells → Outer x c → Outer x (.matrix g)

omit [Scalar α] in
theorem Outer.occurs {x : Expr α} (h : Outer x e) : Occurs x e := by
  induction h with
  | root => exact .root
  | term ht _ ih => exact .child ht ih
  | cell hc _ ih => exact .child hc ih

/-- A monomial that comes down to a number is replaced by it before it is multiplied into a sum. -/
theorem outer_collapse (hS : ∀ m, S (.var m) → S (ofMonomial m)) (he : ∀ x, Outer x e → S x) :
    ∀ x, Outer x e.collapse → S x := by
  cases e with
  | var m =>
    intro x hx
    have hx : x = ofMonomial m := by
      rcases ofMonomial_const_or_var m with ⟨v, h⟩ | h
      all_goals
        rw [collapse, h] at hx
        cases hx
        exact h.symm
    exact hx ▸ hS m (he _ .root)
  | _ => exact he

end Expr

/-- The powers of two monomials with different names can be factors, also behind a number. -/
def Form.Powers (F : Form α) (m n : Monomial α) : Prop :=
  F.factors [Expr.ofMonomial m.bare, Expr.ofMonomial n.bare] ∧
    ∀ v, F.factors [.const v, Expr.ofMonomial m.bare, Expr.ofMonomial n.bare]

/-- Where the outer parts of the operands satisfy these conditions, the factors of the one can be put
    behind those of the other. -/
structure Form.Joins (F : Form α) (S T : Expr α → Prop) : Prop where
  left {a : Expr α} : S a → Expr.Formed F a
  right {b : Expr α} : T b → Expr.Formed F b
  collapse (m : Monomial α) : S (.var m) → S (Expr.ofMonomial m)
  join {a b : Expr α} : S a → T b → b.kind ≠ .constant → F.factors (a.factors ++ b.factors)
  powers {m n : Monomial α} : S (.var m) → T (.var n) → F.Powers m n

/-- A monomial can be put behind factors or in the place of one, and a factor that is a monomial can be
    gone from factors that are multiplied to a number one after the other. -/
structure Form.Divides (F : Form α) (P : Condition α) : Prop where
  append {fs : List (Expr α)} {m : Monomial α} : F.factors fs → F.factors (fs ++ [.var m])
  powers {m n : Monomial α} : P.monomial m → P.monomial n → F.Powers m n
  replace {xs ys : List (Expr α)} {m k : Monomial α} : F.factors (xs ++ .var m :: ys) → F.factors (xs ++ .var k :: ys)
  remove {xs ys : List (Expr α)} {m : Monomial α} {v : α} {c : Expr α} :
    Expr.Everywhere P (.product (xs ++ .var m :: ys)) → Expr.Formed F (.product (xs ++ .var m :: ys)) →
      (xs ++ ys).foldlM Expr.mul (.const v) = .ok c → Expr.Formed F c

namespace Expr.Formed

variable {F : Form α} {a b c : Expr α} {fs : List (Expr α)} (hF : F.Kept)

theorem mulMonomials {m n : Monomial α} (h : F.Powers m n) : Formed F (mulMonomials m n) := by
  have hbare : ∀ f ∈ [Expr.ofMonomial m.bare, Expr.ofMonomial n.bare], Formed F f :=
    List.forall_mem_cons.mpr ⟨ofMonomial _, List.forall_mem_singleton.mpr (ofMonomial _)⟩
  obtain ⟨htwo, hthree⟩ := h
  rcases mulMonomials_cases m n with ⟨-, hc⟩ | ⟨-, hc⟩ | ⟨-, hc⟩ | hc
  · exact hc ▸ ofMonomial _
  · exact hc ▸ .const 0
  · exact hc ▸ .product htwo hbare
  · exact hc ▸ .product (hthree _) (List.forall_mem_cons.mpr ⟨.const _, hbare⟩)

/-! ## Multiplication -/

section
variable {S T : Expr α → Prop} (hJ : F.Joins S T)
include hJ

theorem chain (h : Expr.chain a b = .ok c) (ha : S a) (hb : T b) (hk : b.kind ≠ .constant) : Formed F c :=
  checkedProduct h (hJ.join ha hb hk) (List.forall_mem_append.mpr ⟨(hJ.left ha).factors, (hJ.right hb).factors⟩)

include hF

theorem prependFactor {m : Monomial α} (h : Expr.prependFactor (.ofMonomial m) fs = .ok c) (ha : S (.var m))
    (hb : T (.product fs)) : Formed F c := by
  have hform := hJ.right hb
  rcases ofMonomial_const_or_var m with ⟨v, hm⟩ | hm
  · rw [hm] at h
    cases pure_eq_ok.mp h
    exact mulConstant hF hform.of_product hform.children
  · rw [hm] at h
    exact chain hJ (a := .var m) (b := .product fs) h ha hb nofun

theorem mulCase
    (h : MulCase (fun x y z => x.mul y = .ok z ∧
      ((∀ u, Outer u x → S u) → (∀ u, Outer u y → T u) → Formed F z)) a b c)
    (ha : ∀ u, Outer u a → S u) (hb : ∀ u, Outer u b → T u) : Formed F c := by
  have hform := hJ.left (ha a .root)
  have hform' := hJ.right (hb b .root)
  cases h with
  | grids _ hcs =>
    refine .matrix (forall_mem_right hcs fun p _ y hy => hy.keeps (fun _ _ _ hm => add hF hm) (fun q hq z hz => ?_) (.const 0))
    obtain ⟨hx, hy⟩ := List.of_mem_zip hq
    exact hz.2 (fun u hu => ha u (.cell (Grid.mem_cells_of_mem_row hx) hu))
      fun u hu => hb u (.cell (Grid.mem_cells_of_mem_transpose (Grid.mem_cells_of_mem_row hy)) hu)
  | gridScalar _ _ hcs => exact cells hcs fun x hx y hy => hy.2 (fun u hu => ha u (.cell hx hu)) hb
  | scalarGrid _ _ hcs => exact cells hcs fun x hx y hy => hy.2 ha fun u hu => hb u (.cell hx hu)
  | besideGrid _ hs hne h => exact chain hJ h (ha _ .root) (hb _ .root) (kind_ne_constant hs hne)
  | gridBeside _ _ _ h => exact chain hJ h (ha _ .root) (hb _ .root) nofun
  | number _ h => exact scale hF h hform'
  | monomialNumber => exact ofMonomial _
  | monomials => exact mulMonomials (hJ.powers (ha _ .root) (hb _ .root))
  | monomialProduct h => exact prependFactor hF hJ h (ha _ .root) (hb _ .root)
  | productNumber => exact mulConstant hF hform.of_product hform.children
  | product hk h =>
    exact chain hJ (a := .product _) h (ha _ .root) (hb _ .root) (by rcases hk with hk | hk <;> rw [hk] <;> nofun)
  | intoRight _ hus h =>
    have ha := outer_collapse hJ.collapse ha
    exact sumOf hF h (forall_mem_right hus fun t ht u hu => hu.2 ha fun x hx => hb x (.term ht hx))
  | intoLeft _ _ hus h =>
    exact sumOf hF h (forall_mem_right hus fun t ht u hu => hu.2 (fun x hx => ha x (.term ht hx)) hb)
  | sums hzs h =>
    have hzs := forall_mem_right hzs fun p hp z hz =>
      hz.2 (fun x hx => ha x (.term (List.mem_product.mp hp).1 hx)) fun x hx => hb x (.term (List.mem_product.mp hp).2 hx)
    refine ofTerms hF (foldlM_keeps (P := fun ts => ∀ t ∈ ts, Formed F t) h (List.forall_mem_nil _) ?_)
    exact fun ts hts z hz us hus => forall_foldCross (fun _ _ _ hm => add hF hm) hus (hzs z hz) hts

theorem mul (h : a.mul b = .ok c) (ha : ∀ u, Outer u a → S u) (hb : ∀ u, Outer u b → T u) : Formed F c :=
  mul_induction (R := fun x y z => (∀ u, Outer u x → S u) → (∀ u, Outer u y → T u) → Formed F z)
    (fun _ _ _ h => mulCase hF hJ h) h ha hb

end

/-! ## Division -/

variable {P Q : Condition α} (hD : F.Divides P) (hP : P.Kept)
  (hr : ∀ m : Monomial α, Scalar.nearZero m.quantity = false → Q.monomial m → P.monomial m.recip)
include hD

theorem divFactors {n : Monomial α} (h : Expr.divFactors fs n = .ok c)
    (ha : Everywhere P (.product fs) ∧ Formed F (.product fs)) : Formed F c := by
  rcases divFactors_monomial h with ⟨r, h⟩ | ⟨xs, m, ys, rfl, ⟨v, h⟩ | ⟨k, rfl⟩⟩
  · exact checkedProduct h (hD.append ha.2.of_product)
      (List.forall_mem_append.mpr ⟨ha.2.children, List.forall_mem_singleton.mpr (.var r)⟩)
  · exact hD.remove ha.1 ha.2 h
  · obtain ⟨hxs, hys⟩ := List.forall_mem_append.mp ha.2.children
    exact .product (hD.replace ha.2.of_product)
      (List.forall_mem_append.mpr ⟨hxs, List.forall_mem_cons.mpr ⟨.var k, (List.forall_mem_cons.mp hys).2⟩⟩)

include hF hP hr

theorem divCase
    (h : DivCase (fun x y z => x.div y = .ok z ∧ (Everywhere P x ∧ Formed F x → Everywhere Q y → Formed F z)) a b c)
    (ha : Everywhere P a ∧ Formed F a) (hb : Everywhere Q b) : Formed F c := by
  have parts {x : Expr α} (hx : x ∈ a.children) : Everywhere P x ∧ Formed F x := ⟨ha.1.children x hx, ha.2.children x hx⟩
  cases h with
  | grid _ hcs => exact cells hcs fun x hx y hy => hy.2 (parts hx) hb
  | numbers => exact .const _
  | zeroNumber => exact .const _
  | numberMonomial => exact ofMonomial _
  | monomialNumber => exact ofMonomial _
  | monomials h =>
    obtain ⟨r, hr', h⟩ := bind_eq_ok.mp h
    cases pure_eq_ok.mp h
    have hpowers := Everywhere.recipMonomial hr hr' (Everywhere.var_iff.mp hb)
    exact mulMonomials (hD.powers (Everywhere.var_iff.mp ha.1) hpowers)
  | productNumber => exact mulConstant hF ha.2.of_product ha.2.children
  | productMonomial h => exact divFactors hD h ha
  | byProduct _ _ h =>
    refine (h.keeps (P := fun q => Everywhere P q ∧ Formed F q) ⟨ha.1.collapse, ha.2.collapse⟩ ?_).2
    exact fun g hg q q' hq hq' => ⟨Everywhere.div hP hr hq.1 hq'.1 (hb.children g hg), hq.2 hq' (hb.children g hg)⟩
  | sum _ hus h => exact sumOf hF h (forall_mem_right hus fun t ht u hu => hu.2 (parts ht) hb)

theorem div (h : a.div b = .ok c) (ha : Everywhere P a ∧ Formed F a) (hb : Everywhere Q b) : Formed F c :=
  div_induction (R := fun x y z => Everywhere P x ∧ Formed F x → Everywhere Q y → Formed F z)
    (fun _ _ _ _ _ h => divCase hF hD hP hr h) h ha hb

end Expr.Formed

end SymbolicAlgebra
