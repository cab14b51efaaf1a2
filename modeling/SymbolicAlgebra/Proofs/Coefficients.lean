/-
  SymbolicAlgebra.Proofs.Coefficients — the number in front of a product.

  The only number among the factors of a product is to be the first of them, its coefficient
  (`Leading`). Negation, addition and subtraction keep it so. Multiplication puts the factors of the
  right operand behind those of the left one, a coefficient included; so it keeps numbers in front
  where the products that the right operand is or brings as terms and cells have none (`Follows`).
  Division by a monomial of the name of a factor multiplies the other factors again, each from the
  right, and so keeps numbers in front where no factor holds a product with a coefficient
  (`Numberless`). Both take a power that does not depend on its name for a number, wherever it stands
  among the factors (`Dependent`).

  `arithmetic_leading` states this, and `mul_number_inside` shows that the conditions are needed.
-/

import SymbolicAlgebra.Proofs.Forms
import SymbolicAlgebra.Proofs.Rational

namespace SymbolicAlgebra

variable {α : Type}

/-! ## Forms of products -/

/-- No factor is a number. -/
def Form.numberless (α : Type) : Form α where
  terms _ := True
  factors fs := ∀ f ∈ fs, f.kind ≠ .constant

namespace Expr

/-- No product in the tree has a number among its factors. -/
abbrev Numberless (e : Expr α) : Prop := Formed (.numberless α) e

/-- None of the factors is a number, and all but the first satisfy a condition. -/
structure Plain (Q : Expr α → Prop) (fs : List (Expr α)) : Prop where
  kinds : ∀ f ∈ fs, f.kind ≠ .constant
  rest : ∀ f ∈ fs.tail, Q f

/-- Such factors on their own, or behind a number. -/
inductive Led (Q : Expr α → Prop) : List (Expr α) → Prop
  | plain {fs : List (Expr α)} : Plain Q fs → Led Q fs
  | coefficient (v : α) {fs : List (Expr α)} : Plain Q fs → Led Q (.const v :: fs)

section
variable {Q : Expr α → Prop} {f g : Expr α} {fs gs : List (Expr α)}

namespace Plain

theorem cons (hk : f.kind ≠ .constant) (h : ∀ g ∈ fs, g.kind ≠ .constant ∧ Q g) : Plain Q (f :: fs) :=
  ⟨List.forall_mem_cons.mpr ⟨hk, fun g hg => (h g hg).1⟩, fun g hg => (h g hg).2⟩

theorem of_forall (h : ∀ f ∈ fs, f.kind ≠ .constant ∧ Q f) : Plain Q fs :=
  ⟨fun f hf => (h f hf).1, fun f hf => (h f (List.mem_of_mem_tail hf)).2⟩

theorem append (h : Plain Q fs) (hgs : ∀ g ∈ gs, g.kind ≠ .constant ∧ Q g) : Plain Q (fs ++ gs) := by
  cases fs with
  | nil => exact of_forall hgs
  | cons f fs =>
    refine cons (h.kinds f List.mem_cons_self) (List.forall_mem_append.mpr ⟨fun g hg => ?_, hgs⟩)
    exact ⟨h.kinds g (List.mem_cons_of_mem f hg), h.rest g hg⟩

theorem set (h : Plain Q (fs ++ f :: gs)) (hk : g.kind ≠ .constant) (hq : Q g) : Plain Q (fs ++ g :: gs) := by
  obtain ⟨hfs, hgs⟩ := List.forall_mem_append.mp h.kinds
  refine ⟨List.forall_mem_append.mpr ⟨hfs, List.forall_mem_cons.mpr ⟨hk, (List.forall_mem_cons.mp hgs).2⟩⟩, ?_⟩
  cases fs with
  | nil => exact h.rest
  | cons f' fs =>
    obtain ⟨hfs, hgs⟩ := List.forall_mem_append.mp h.rest
    exact List.forall_mem_append.mpr ⟨hfs, List.forall_mem_cons.mpr ⟨hq, (List.forall_mem_cons.mp hgs).2⟩⟩

theorem erase (h : Plain Q (fs ++ f :: gs)) : Plain Q (fs ++ gs) := by
  obtain ⟨hfs, hgs⟩ := List.forall_mem_append.mp h.kinds
  refine ⟨List.forall_mem_append.mpr ⟨hfs, (List.forall_mem_cons.mp hgs).2⟩, ?_⟩
  cases fs with
  | nil => exact fun g hg => h.rest g (List.mem_of_mem_tail hg)
  | cons f' fs =>
    obtain ⟨hfs, hgs⟩ := List.forall_mem_append.mp h.rest
    exact List.forall_mem_append.mpr ⟨hfs, (List.forall_mem_cons.mp hgs).2⟩

theorem splitFrom [Scalar α] (bare : ∀ m, Q (.var m) → Q (.var m.bare)) (h : Plain Q fs) (v : α) :
    Plain Q (splitFrom v fs).2 := by
  refine ⟨kind_splitFrom v fs, ?_⟩
  cases fs with
  | nil => exact List.forall_mem_nil _
  | cons f fs =>
    have hrest : ∀ w, ∀ g ∈ (Expr.splitFrom w fs).2, Q g := fun w => forall_splitFrom bare h.rest
    cases f with
    | const w => exact absurd rfl (h.kinds _ List.mem_cons_self)
    | _ => exact hrest _

end Plain

namespace Led

theorem const_cons_iff {v : α} : Led Q (.const v :: fs) ↔ Plain Q fs := by
  refine ⟨fun h => ?_, .coefficient v⟩
  cases h with
  | plain h => exact absurd rfl (h.kinds _ List.mem_cons_self)
  | coefficient _ h => exact h

/-- Without a number in front there is none. -/
theorem plain_of_head (h : Led Q fs) (hk : ∀ f ∈ fs.head?, f.kind ≠ .constant) : Plain Q fs := by
  cases h with
  | plain h => exact h
  | coefficient v h => exact absurd rfl (hk _ rfl)

theorem imp {Q' : Expr α → Prop} (h : Led Q fs) (hQ : ∀ f ∈ fs, Q' f) : Led Q' fs := by
  cases h with
  | plain h => exact .plain ⟨h.kinds, fun f hf => hQ f (List.mem_of_mem_tail hf)⟩
  | coefficient v h => exact .coefficient v ⟨h.kinds, fun f hf => hQ f (List.mem_cons_of_mem _ (List.mem_of_mem_tail hf))⟩

theorem append (h : Led Q fs) (hgs : ∀ g ∈ gs, g.kind ≠ .constant ∧ Q g) : Led Q (fs ++ gs) := by
  cases h with
  | plain h => exact .plain (h.append hgs)
  | coefficient v h => exact .coefficient v (h.append hgs)

/-- One factor takes the place of another, a number that of a number. -/
theorem set (h : Led Q (fs ++ f :: gs)) (hk : f.kind = .constant ↔ g.kind = .constant) (hq : Q g) :
    Led Q (fs ++ g :: gs) := by
  generalize hl : fs ++ f :: gs = l at h
  cases h with
  | plain h =>
    subst hl
    have hf : f.kind ≠ .constant := h.kinds f (by simp)
    exact .plain (h.set (mt hk.mpr hf) hq)
  | coefficient v h =>
    cases fs with
    | nil =>
      cases hl
      cases g with
      | const w => exact .coefficient w h
      | _ => exact absurd (hk.mp rfl) nofun
    | cons f' fs =>
      cases hl
      have hf : f.kind ≠ .constant := h.kinds f (by simp)
      exact .coefficient v (h.set (mt hk.mpr hf) hq)

/-- A factor that is no number is left out. -/
theorem erase (h : Led Q (fs ++ f :: gs)) (hk : f.kind ≠ .constant) : Led Q (fs ++ gs) := by
  generalize hl : fs ++ f :: gs = l at h
  cases h with
  | plain h =>
    subst hl
    exact .plain h.erase
  | coefficient v h =>
    cases fs with
    | nil =>
      cases hl
      exact absurd rfl hk
    | cons f' fs =>
      cases hl
      exact .coefficient v h.erase

theorem splitFrom [Scalar α] (bare : ∀ m, Q (.var m) → Q (.var m.bare)) (h : Led Q fs) (v : α) :
    Led Q (splitFrom v fs).2 := by
  cases h with
  | plain h => exact .plain (h.splitFrom bare v)
  | coefficient w h => exact .plain (h.splitFrom bare (v * w))

end Led

end

end Expr

/-- The only number among the factors of a product is the first of them; behind it, all factors but
    the first satisfy a condition. -/
def Form.leading (Q : Expr α → Prop) : Form α where
  terms _ := True
  factors := Expr.Led Q

namespace Expr

/-- In every product of the tree the only number is the first factor, if there is one. -/
abbrev Leading (e : Expr α) : Prop := Formed (.leading fun _ => True) e

/-- No monomial of the tree comes down to a number once its quantity is taken away. -/
abbrev Dependent [Scalar α] (e : Expr α) : Prop := Everywhere ⟨fun m => m.bare.isConstant = false, fun _ _ _ => True⟩ e

variable [Scalar α]

/-- What may stand on the left in a multiplication. -/
structure Leads (Q : Expr α → Prop) (e : Expr α) : Prop where
  form : Formed (.leading Q) e
  power : ∀ m, e = .var m → m.bare.isConstant = false

/-- What may stand behind other factors: no number is among its factors. -/
structure Follows (Q : Expr α → Prop) (e : Expr α) : Prop extends Leads Q e where
  factors : e.kind ≠ .constant → ∀ f ∈ e.factors, f.kind ≠ .constant ∧ Q f

/-! ## What the operations keep -/

section
variable {Q : Expr α → Prop} (hQ : ∀ f, Numberless f → Q f)
include hQ

theorem leading_kept : (Form.leading Q).Kept where
  terms _ := trivial
  neg {fs} h := by
    rcases negFactors_cases fs with ⟨xs, f, ys, rfl, hf, hneg⟩ | ⟨hnone, hneg⟩
    · rw [hneg]
      cases f with
      | const v => exact Led.set h Iff.rfl (hQ _ (.const _))
      | var m => exact Led.set h (by simp [flipSign, kind]) (hQ _ (.var _))
      | _ => cases hf
    · -- Without a number among the factors, one can come in front.
      rw [hneg]
      refine .coefficient _ (Led.plain_of_head h fun f hf hk => ?_)
      have hnumber : ¬ f.isNumeric = true := List.any_eq_false.mp hnone f (List.mem_of_mem_head? hf)
      cases f with
      | const v => exact hnumber rfl
      | _ => cases hk
  change h := .coefficient _ (Led.const_cons_iff.mp h)
  drop _ h := .plain (Led.const_cons_iff.mp h)
  put hk h := .coefficient _ (Led.plain_of_head h hk)
  split _ h := Led.splitFrom (fun m _ => hQ _ (.var _)) h _

omit [Scalar α] in
theorem Numberless.factors {e : Expr α} (h : Numberless e) (hk : e.kind ≠ .constant) :
    ∀ f ∈ e.factors, f.kind ≠ .constant ∧ Q f := by
  cases e with
  | product fs => exact fun f hf => ⟨h.of_product f hf, hQ f (h.children f hf)⟩
  | _ => exact List.forall_mem_singleton.mpr ⟨hk, hQ _ h⟩

omit [Scalar α] in
theorem Numberless.leading {e : Expr α} (h : Numberless e) : Formed (.leading Q) e := by
  induction h with
  | const v => exact .const v
  | var m => exact .var m
  | sum _ _ ih => exact .sum trivial ih
  | product hk h ih => exact .product (.plain (.of_forall fun f hf => ⟨hk f hf, hQ f (h f hf)⟩)) ih
  | matrix _ ih => exact .matrix ih

omit [Scalar α] hQ in
theorem led_factors {e : Expr α} (h : Formed (.leading Q) e) : Led Q e.factors := by
  cases e with
  | const v => exact .coefficient v ⟨List.forall_mem_nil _, List.forall_mem_nil _⟩
  | product fs => exact h.of_product
  | _ => exact .plain (.cons nofun (List.forall_mem_nil _))

theorem leading_powers {m n : Monomial α} (hm : m.bare.isConstant = false) (hn : n.bare.isConstant = false) :
    (Form.leading Q).Powers m n := by
  have hpower {k : Monomial α} (h : k.bare.isConstant = false) : ofMonomial k.bare = .var k.bare := by
    simp only [Monomial.isConstant, Bool.or_eq_false_iff] at h
    simp [ofMonomial, h]
  unfold Form.Powers
  rw [hpower hm, hpower hn]
  have hplain : Plain Q [.var m.bare, .var n.bare] :=
    .cons nofun (List.forall_mem_singleton.mpr ⟨nofun, hQ _ (.var _)⟩)
  exact ⟨.plain hplain, fun v => .coefficient v hplain⟩

theorem leading_joins : (Form.leading Q).Joins (Leads Q) (Follows Q) where
  left h := h.form
  right h := h.form
  collapse m h := by
    rcases ofMonomial_const_or_var m with ⟨v, hm⟩ | hm
    · exact hm ▸ ⟨.const v, nofun⟩
    · exact hm ▸ h
  join ha hb hk := (led_factors ha.form).append (hb.factors hk)
  powers hm hn := leading_powers hQ (hm.power _ rfl) (hn.power _ rfl)

end

theorem dependent_kept : (⟨fun m => m.bare.isConstant = false, fun _ _ _ => True⟩ : Condition α).Kept where
  neg h := h
  bare h := h
  quantity _ h := h
  power _ he _ h _ := by
    simp only [Monomial.isConstant, Bool.or_eq_false_iff] at h ⊢
    exact ⟨he, h.2⟩
  zip _ _ := trivial
  mul _ _ := trivial

section
variable {a b c : Expr α} {fs : List (Expr α)}

theorem mul_leading (h : a.mul b = .ok c) (ha : Leading a) (hb : Leading b)
    (hpower : ∀ m, Outer (.var m) a ∨ Outer (.var m) b → m.bare.isConstant = false)
    (hfactors : ∀ fs, Outer (.product fs) b → ∀ f ∈ fs, f.kind ≠ .constant) : Leading c := by
  have hjoins : (Form.leading fun _ : Expr α => True).Joins _ _ := leading_joins fun _ _ => trivial
  refine Formed.mul (leading_kept fun _ _ => trivial) hjoins h (fun u hu => ?_) fun u hu => ?_
  · exact ⟨ha.of_occurs hu.occurs, fun m hm => hpower m (Or.inl (hm ▸ hu))⟩
  · refine ⟨⟨hb.of_occurs hu.occurs, fun m hm => hpower m (Or.inr (hm ▸ hu))⟩, fun hk f hf => ⟨?_, trivial⟩⟩
    cases u with
    | product fs => exact hfactors fs hu f hf
    | _ => exact List.mem_singleton.mp hf ▸ hk

/-! ## Division

The factors that a monomial leaves are multiplied to a number. The first of them may be or hold a
product with a coefficient, since it comes first. -/

theorem mul_const_const {v w : α} (h : Expr.mul (.const v) (.const w) = .ok c) : ∃ u, c = .const u := by
  have hcase := mul_cases (R := fun _ _ _ => True) (fun _ _ _ _ _ => trivial) h
  cases hcase with
  | number _ h =>
    have hstep : Calls.unbounded.scaleStep v (.const w) = .ok c := by rw [← scale_eq_step, h]; rfl
    cases Calls.scaleStep_cases hstep with
    | zero => exact ⟨_, rfl⟩
    | one => exact ⟨_, rfl⟩
    | minusOne => exact ⟨_, rfl⟩
    | number => exact ⟨_, rfl⟩

theorem mul_numberless (h : a.mul b = .ok c) (ha : Dependent a ∧ Formed (.leading Numberless) a)
    (hb : Dependent b ∧ Numberless b) : Formed (.leading Numberless) c := by
  have hjoins : (Form.leading (Numberless (α := α))).Joins _ _ := leading_joins fun _ h => h
  have hpower {e u : Expr α} (he : Dependent e) (hu : Outer u e) : ∀ m, u = .var m → m.bare.isConstant = false :=
    fun m hm => Everywhere.var_iff.mp (hm ▸ he.of_occurs hu.occurs)
  refine Formed.mul (leading_kept fun _ h => h) hjoins h (fun u hu => ?_) fun u hu => ?_
  · exact ⟨ha.2.of_occurs hu.occurs, hpower ha.1 hu⟩
  · have hnumberless := hb.2.of_occurs hu.occurs
    exact ⟨⟨Numberless.leading (fun _ h => h) hnumberless, hpower hb.1 hu⟩, Numberless.factors (fun _ h => h) hnumberless⟩

theorem foldlM_mul_leading {p : Expr α} (h : fs.foldlM Expr.mul p = .ok c)
    (hp : Dependent p ∧ Formed (.leading Numberless) p) (hfs : ∀ f ∈ fs, Dependent f ∧ Numberless f) :
    Formed (.leading Numberless) c := by
  refine (foldlM_keeps (P := fun p => Dependent p ∧ Formed (.leading Numberless) p) h hp ?_).2
  intro s hs f hf s' hs'
  exact ⟨Everywhere.mul dependent_kept hs' hs.1 (hfs f hf).1, mul_numberless hs' hs (hfs f hf)⟩

theorem foldlM_mul_plain {v : α} (h : fs.foldlM Expr.mul (.const v) = .ok c) (hplain : Plain Numberless fs)
    (hfs : ∀ f ∈ fs, Dependent f ∧ Formed (.leading Numberless) f) : Formed (.leading Numberless) c := by
  cases fs with
  | nil =>
    cases pure_eq_ok.mp h
    exact .const v
  | cons f fs =>
    obtain ⟨p, hp, h⟩ := foldlM_cons_eq_ok.mp h
    obtain ⟨hf, hfs⟩ := List.forall_mem_cons.mp hfs
    refine foldlM_mul_leading h ⟨Everywhere.mul dependent_kept hp (.const v) hf.1, ?_⟩
      fun g hg => ⟨(hfs g hg).1, hplain.rest g hg⟩
    exact Formed.mul_number (leading_kept fun _ h => h) hp hf.2

theorem leading_divides :
    (Form.leading Numberless).Divides ⟨fun m : Monomial α => m.bare.isConstant = false, fun _ _ _ => True⟩ where
  append h := Led.append h (List.forall_mem_singleton.mpr ⟨nofun, .var _⟩)
  powers := leading_powers fun _ h => h
  replace h := Led.set h (by simp [kind]) (.var _)
  remove {xs ys m v c} hdep hform h := by
    have hled : Led Numberless (xs ++ ys) := Led.erase hform.of_product (by simp [kind])
    have hfs : ∀ f ∈ xs ++ ys, Dependent f ∧ Formed (.leading Numberless) f := by
      intro f hf
      have hf : f ∈ xs ++ .var m :: ys := by
        rcases List.mem_append.mp hf with hf | hf
        · exact List.mem_append_left _ hf
        · exact List.mem_append_right _ (List.mem_cons_of_mem _ hf)
      exact ⟨hdep.children f hf, hform.children f hf⟩
    generalize xs ++ ys = fs at hled hfs h
    cases hled with
    | plain hplain => exact foldlM_mul_plain h hplain hfs
    | coefficient w hplain =>
      obtain ⟨p, hp, h⟩ := foldlM_cons_eq_ok.mp h
      obtain ⟨u, rfl⟩ := mul_const_const hp
      exact foldlM_mul_plain h hplain (List.forall_mem_cons.mp hfs).2

/-- Negation, addition and subtraction keep the number of each product in front. So does a multiplication
    by a number from the left, and one in which the products that are put behind others have no number;
    and so does a division of products whose factors have none in their products. In the last two, no
    power may come down to a number. -/
theorem arithmetic_leading (ha : Leading a) (hb : Leading b) :
    Leading a.neg ∧ (a.add b = .ok c ∨ a.sub b = .ok c → Leading c) ∧
      (a.mul b = .ok c → a.kind = .constant ∨ (∀ fs, Outer (.product fs) b → ∀ f ∈ fs, f.kind ≠ .constant) ∧
        (∀ m, Outer (.var m) a ∨ Outer (.var m) b → m.bare.isConstant = false) → Leading c) ∧
      (a.div b = .ok c → (∀ fs, Occurs (.product fs) a → ∀ f ∈ fs, Numberless f) → Dependent a →
        Everywhere ⟨fun n => n.recip.bare.isConstant = false, fun _ _ _ => True⟩ b → Leading c) := by
  have hkept : (Form.leading fun _ : Expr α => True).Kept := leading_kept fun _ _ => trivial
  refine ⟨ha.neg hkept, ?_, ?_, ?_⟩
  · rintro (h | h)
    · exact Formed.add hkept h ha hb
    · exact Formed.sub hkept h ha hb
  · rintro h (hk | ⟨hfactors, hpower⟩)
    · cases a with
      | const v => exact Formed.mul_number hkept h hb
      | _ => cases hk
    · exact mul_leading h ha hb hpower hfactors
  · intro h hinner hda hdb
    have hform : Formed (.leading Numberless) a :=
      Formed.iff_occurs.mpr ⟨fun _ _ => trivial, fun fs ho => ((Formed.iff_occurs.mp ha).2 fs ho).imp (hinner fs ho)⟩
    have hc := Formed.div (leading_kept fun _ h => h) leading_divides dependent_kept (fun _ _ h => h) h ⟨hda, hform⟩ hdb
    exact Formed.iff_occurs.mpr
      ⟨fun _ _ => trivial, fun fs ho => ((Formed.iff_occurs.mp hc).2 fs ho).imp fun _ _ => trivial⟩

end

/-- A coefficient that goes into the terms of a sum, and one that stays when a factor is divided out. -/
theorem arithmetic_leading_distributed :
    let x : Expr ℚ := .ofName "x"
    let y : Expr ℚ := .ofName "y"
    let z : Expr ℚ := .ofName "z"
    Leading (.sum [.product [.const 2, x, y, y], .product [.const 2, x, y, z]]) ∧ Leading (.product [.const 2, y, z]) := by
  intro x y z
  have one : Scalar.nearZero (1 : ℚ) = false := by decide
  have hpower (n : String) : (Monomial.ofName n : Monomial ℚ).bare.isConstant = false := by
    simp [Monomial.ofName, Monomial.bare, Monomial.isConstant, one]
  have hproduct (fs : List (Expr ℚ)) (hfs : ∀ f ∈ fs, ∃ n, f = .ofName n) : Leading (.product (.const 2 :: fs)) := by
    refine .product (.coefficient 2 (.of_forall fun f hf => ?_)) (List.forall_mem_cons.mpr ⟨.const 2, fun f hf => ?_⟩)
    all_goals obtain ⟨n, rfl⟩ := hfs f hf
    · exact ⟨nofun, trivial⟩
    · exact .var _
  constructor
  · have h : (Expr.product [.const 2, x, y]).mul (.sum [y, z]) =
        .ok (.sum [.product [.const 2, x, y, y], .product [.const 2, x, y, z]]) := by cbv
    have hsum : Leading (.sum [y, z]) := .sum trivial (by simp [y, z, ofName, Formed.var])
    have hparts {e : Expr ℚ} (he : Outer e (.sum [y, z])) : e = .sum [y, z] ∨ ∃ n, e = .ofName n := by
      cases he with
      | root => exact Or.inl rfl
      | @term t _ ht he =>
        obtain ⟨n, rfl⟩ : ∃ n, t = .ofName n := by
          rcases List.mem_pair.mp ht with rfl | rfl
          · exact ⟨"y", rfl⟩
          · exact ⟨"z", rfl⟩
        cases he
        exact Or.inr ⟨n, rfl⟩
    refine (arithmetic_leading (hproduct [x, y] (by simp [x, y])) hsum).2.2.1 h (Or.inr ⟨fun fs he => ?_, ?_⟩)
    · rcases hparts he with he | ⟨n, he⟩ <;> cases he
    · rintro m (he | he)
      · cases he
      · rcases hparts he with he | ⟨n, he⟩
        · cases he
        · cases he
          exact hpower n
  · have h : (Expr.product [.const 2, x, y, z]).div x = .ok (.product [.const 2, y, z]) := by cbv
    have hfactors : ∀ f ∈ [.const 2, x, y, z], Numberless f ∧ Dependent f :=
      List.forall_mem_cons.mpr ⟨⟨.const 2, .const 2⟩, by simp [x, y, z, ofName, Formed.var, Everywhere.var_iff, hpower]⟩
    refine (arithmetic_leading (hproduct [x, y, z] (by simp [x, y, z])) (.var _)).2.2.2 h ?_
      (.product fun f hf => (hfactors f hf).2) (.var (by decide))
    intro fs ho
    simp only [x, y, z, ofName, occurs_product, List.mem_cons, List.not_mem_nil, or_false, exists_eq_or_imp,
      exists_eq_left, occurs_const, occurs_var, reduceCtorEq, product.injEq] at ho
    subst ho
    exact fun f hf => (hfactors f hf).1

/-- A coefficient comes behind a factor, also when a division multiplies a factor that is a product
    with a coefficient; and so does the number that a power comes down to. -/
theorem mul_number_inside :
    let x : Expr ℚ := .ofName "x"
    let y : Expr ℚ := .ofName "y"
    let z : Expr ℚ := .ofName "z"
    let twice : Expr ℚ := .product [.const 2, y, z]
    (Leading x ∧ Leading twice ∧ x.mul twice = .ok (.product [x, .const 2, y, z]) ∧ ¬ Leading (.product [x, .const 2, y, z])) ∧
      (Leading (.product [x, z, twice]) ∧ (Expr.product [x, z, twice]).div x = .ok (.product [z, .const 2, y, z]) ∧
        ¬ Leading (.product [z, .const 2, y, z])) ∧
      (Expr.var (⟨"x", 2, 0⟩ : Monomial ℚ)).mul (.var ⟨"y", 3, 1⟩) = .ok (.product [.const 6, .const 1, y]) ∧
        ¬ Leading (.product [.const 6, .const 1, y]) := by
  intro x y z twice
  have htwice : Leading twice :=
    .product (.coefficient 2 (.of_forall (by simp [y, z, ofName, kind]))) (by simp [y, z, ofName, Formed.const, Formed.var])
  have hinside (n : String) (v : ℚ) (fs : List (Expr ℚ)) : ¬ Leading (.product (.ofName n :: .const v :: fs)) := by
    intro h
    cases h.of_product with
    | plain h => exact h.kinds (.const v) (by simp) rfl
  refine ⟨⟨.var _, htwice, by cbv, hinside "x" 2 _⟩, ⟨?_, by cbv, hinside "z" 2 _⟩, by cbv, fun h => ?_⟩
  · exact .product (.plain (.of_forall (by simp [x, z, twice, ofName, kind])))
      (List.forall_mem_cons.mpr ⟨.var _, List.forall_mem_cons.mpr ⟨.var _, List.forall_mem_singleton.mpr htwice⟩⟩)
  · exact (Led.const_cons_iff.mp h.of_product).kinds (.const 1) (by simp) rfl

end Expr

end SymbolicAlgebra
