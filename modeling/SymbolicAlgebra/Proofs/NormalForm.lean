/-
  SymbolicAlgebra.Proofs.NormalForm — the factors of a tidied product.

  A product in normal form has no product among its factors, and a number only in front
  (`NormalFactors`). Tidying puts the factors of nested products in their place and takes all numbers
  out, but it does so before it multiplies the factors again, and a product that stands in a sum is put
  behind the factors as it is, numbers and nested products included. So what is tidied is in normal
  form if the products in its sums have neither of these as factors (`normalize_normalFactors`), and
  need not be otherwise (`normalize_nests`).

  The left operand of a multiplication may have been multiplied before. So it may hold products with a
  number in front (`Orderly`), which the right operand must not (`Bare`); their product holds such products too (`Orderly.mul`).
-/

import SymbolicAlgebra.Proofs.Everywhere
import SymbolicAlgebra.Proofs.Rational

namespace SymbolicAlgebra.Expr

variable {α : Type}

/-! ## Factors in normal form -/

/-- Neither a number nor a product. -/
def Loose (f : Expr α) : Prop := f.kind ≠ .constant ∧ f.kind ≠ .product

theorem loose_var (m : Monomial α) : Loose (.var m) := ⟨nofun, nofun⟩

/-- No factor is a product, and none but the first is a number. -/
structure NormalFactors (fs : List (Expr α)) : Prop where
  flat : ∀ f ∈ fs, f.kind ≠ .product
  front : ∀ f ∈ fs.tail, f.kind ≠ .constant

namespace NormalFactors

variable {f : Expr α} {fs gs : List (Expr α)}

theorem cons_iff : NormalFactors (f :: fs) ↔ f.kind ≠ .product ∧ ∀ g ∈ fs, Loose g :=
  ⟨fun h => ⟨h.flat f List.mem_cons_self, fun g hg => ⟨h.front g hg, h.flat g (List.mem_cons_of_mem f hg)⟩⟩,
    fun h => ⟨List.forall_mem_cons.mpr ⟨h.1, fun g hg => (h.2 g hg).2⟩, fun g hg => (h.2 g hg).1⟩⟩

theorem of_loose (h : ∀ f ∈ fs, Loose f) : NormalFactors fs :=
  ⟨fun f hf => (h f hf).2, fun f hf => (h f (List.mem_of_mem_tail hf)).1⟩

theorem cons_number (v : α) (h : ∀ f ∈ fs, Loose f) : NormalFactors (.const v :: fs) := cons_iff.mpr ⟨by simp [kind], h⟩

theorem append (hf : NormalFactors fs) (hg : ∀ g ∈ gs, Loose g) : NormalFactors (fs ++ gs) := by
  cases fs with
  | nil => exact of_loose hg
  | cons f fs =>
    obtain ⟨hf, hfs⟩ := cons_iff.mp hf
    exact cons_iff.mpr ⟨hf, List.forall_mem_append.mpr ⟨hfs, hg⟩⟩

theorem of_kinds (hf : NormalFactors fs) (h : gs.map kind = fs.map kind) : NormalFactors gs := by
  have transfer {xs ys : List (Expr α)} {k : Kind} (hxy : ys.map kind = xs.map kind) (hx : ∀ x ∈ xs, x.kind ≠ k) :
      ∀ y ∈ ys, y.kind ≠ k := by
    intro y hy e
    have : k ∈ xs.map kind := hxy ▸ List.mem_map.mpr ⟨y, hy, e⟩
    obtain ⟨x, hx', e'⟩ := List.mem_map.mp this
    exact hx x hx' e'
  exact ⟨transfer h hf.flat, transfer (by rw [List.map_tail, List.map_tail, h]) hf.front⟩

variable [Scalar α]

theorem splitFrom {v : α} (h : ∀ f ∈ fs, f.kind ≠ .product) : ∀ g ∈ (splitFrom v fs).2, Loose g := by
  induction fs generalizing v with
  | nil => exact List.forall_mem_nil _
  | cons f fs ih =>
    obtain ⟨hf, hfs⟩ := List.forall_mem_cons.mp h
    cases f with
    | const w => exact ih hfs
    | product gs => exact absurd rfl hf
    | _ => exact List.forall_mem_cons.mpr ⟨⟨nofun, nofun⟩, ih hfs⟩

theorem negFactors (h : NormalFactors fs) : NormalFactors (negFactors fs) := by
  rcases negFactors_cases fs with ⟨xs, f, ys, rfl, -, hneg⟩ | ⟨hnone, hneg⟩
  · rw [hneg]
    exact h.of_kinds (by cases f <;> simp [Expr.flipSign, kind])
  · -- Without a number among the factors, one can come in front.
    rw [hneg]
    refine cons_number _ fun f hf => ⟨fun hk => ?_, h.flat f hf⟩
    have hnumber : ¬ f.isNumeric = true := List.any_eq_false.mp hnone f hf
    cases f with
    | const v => exact hnumber rfl
    | _ => cases hk

end NormalFactors

/-! ## Trees whose products are in normal form -/

/-- Outside of grids, every product is in normal form and every monomial depends on its name. -/
inductive Orderly [Scalar α] : Expr α → Prop
  | const (v : α) : Orderly (.const v)
  | var {m : Monomial α} : Scalar.nearZero m.exponent = false → Orderly (.var m)
  | sum {ts : List (Expr α)} : (∀ t ∈ ts, Orderly t) → Orderly (.sum ts)
  | product {fs : List (Expr α)} : NormalFactors fs → (∀ f ∈ fs, Orderly f) → Orderly (.product fs)
  | matrix (g : Grid (Expr α)) : Orderly (.matrix g)

namespace Orderly

variable [Scalar α] {e : Expr α} {fs ts : List (Expr α)}

theorem of_var {m : Monomial α} (h : Orderly (.var m)) : Scalar.nearZero m.exponent = false := by
  cases h
  assumption

theorem of_sum (h : Orderly (.sum ts)) : ∀ t ∈ ts, Orderly t := by
  cases h
  assumption

theorem of_product (h : Orderly (.product fs)) : NormalFactors fs ∧ ∀ f ∈ fs, Orderly f := by
  cases h with
  | product hn hf => exact ⟨hn, hf⟩

theorem terms (h : Orderly e) : ∀ t ∈ e.terms, Orderly t := by
  cases e with
  | sum ts => exact h.of_sum
  | _ => exact fun t ht => List.mem_singleton.mp ht ▸ h

theorem factors (h : Orderly e) : NormalFactors e.factors ∧ ∀ f ∈ e.factors, Orderly f := by
  cases e with
  | product fs => exact h.of_product
  | _ => exact ⟨NormalFactors.cons_iff.mpr ⟨nofun, nofun⟩, fun f hf => List.mem_singleton.mp hf ▸ h⟩

theorem pair {a b c : Expr α} (h : Expr.pair a b = .ok c) (ha : Orderly a) (hb : Orderly b) : Orderly c := by
  obtain ⟨s, -, -, rfl⟩ := pair_eq_ok h
  exact .sum (by simpa using ⟨ha, hb⟩)

theorem checkedProduct {c : Expr α} (h : Expr.checkedProduct fs = .ok c) (hn : NormalFactors fs)
    (hf : ∀ f ∈ fs, Orderly f) : Orderly c := by
  obtain ⟨s, -, rfl⟩ := checkedProduct_eq_ok h
  exact .product hn hf

theorem ofMonomial (m : Monomial α) : Orderly (ofMonomial m) := by
  rcases ofMonomial_cases m with ⟨-, hc⟩ | ⟨-, hc⟩ | ⟨-, he, hc⟩
  · exact hc ▸ .const 0
  · exact hc ▸ .const m.quantity
  · exact hc ▸ .var he

theorem collapse (h : Orderly e) : Orderly e.collapse := by
  cases e with
  | var m => exact ofMonomial m
  | _ => exact h

theorem ofTerms (h : ∀ t ∈ ts, Orderly t) : Orderly (ofTerms ts) := by
  rcases ofTerms_cases ts with ⟨-, hc⟩ | ⟨t, rfl, -⟩ | ⟨-, hc⟩
  · exact hc ▸ .const 0
  · exact h t (List.mem_singleton.mpr rfl)
  · exact hc ▸ .sum h

theorem ofFactors (hloose : ∀ f ∈ fs, Loose f) (h : ∀ f ∈ fs, Orderly f) : Orderly (ofFactors fs) := by
  rcases ofFactors_cases fs with ⟨-, hc⟩ | ⟨f, rfl, -⟩ | ⟨-, hc⟩
  · exact hc ▸ .const 1
  · exact h f (List.mem_singleton.mpr rfl)
  · exact hc ▸ .product (.of_loose hloose) h

theorem mulConstant {v : α} (hn : NormalFactors fs) (h : ∀ f ∈ fs, Orderly f) : Orderly (mulConstant v fs) := by
  rcases mulConstant_cases v fs with ⟨-, hc⟩ | ⟨-, hc⟩ | ⟨w, rest, rfl, hc⟩ | ⟨hhead, hc⟩
  · exact hc ▸ .const 0
  · exact hc ▸ .product hn h
  · obtain ⟨-, hloose⟩ := NormalFactors.cons_iff.mp hn
    obtain ⟨-, hrest⟩ := List.forall_mem_cons.mp h
    rcases hc with ⟨-, hc⟩ | hc
    · exact hc ▸ ofFactors hloose hrest
    · exact hc ▸ .product (.cons_number _ hloose) (List.forall_mem_cons.mpr ⟨.const _, hrest⟩)
  · rw [hc]
    refine .product (.cons_number v fun f hf => ⟨fun hk => ?_, hn.flat f hf⟩) (List.forall_mem_cons.mpr ⟨.const v, h⟩)
    -- A number could only be in front, and there is none.
    cases fs with
    | nil => cases hf
    | cons g fs =>
      rcases List.mem_cons.mp hf with rfl | hf
      · exact hhead f rfl hk
      · exact hn.front f hf hk

theorem flipSign (h : Orderly e) : Orderly e.flipSign := by
  cases e with
  | const v => exact .const _
  | var m => exact .var h.of_var
  | _ => exact h

theorem neg (h : Orderly e) : Orderly e.neg := by
  induction h with
  | const v => exact .const _
  | var he => exact .var he
  | sum _ ih =>
    rw [Expr.neg, negAll_eq_map]
    exact .sum (List.forall_mem_map.mpr ih)
  | product hn h _ => exact .product hn.negFactors (forall_negFactors (fun _ => flipSign) (.const _) h)
  | matrix g => exact .matrix _

theorem splitFrom {v : α} (h : ∀ f ∈ fs, Orderly f) : ∀ f ∈ (splitFrom v fs).2, Orderly f :=
  forall_splitFrom (fun _ hm => .var hm.of_var) h

/-! ## Addition and scaling -/

/-- What addition makes of orderly trees is orderly. -/
abbrev Adds (a b c : Expr α) : Prop := Orderly a → Orderly b → Orderly c

abbrev Scales (_ : α) (e c : Expr α) : Prop := Orderly e → Orderly c

section
variable {call : Calls α} (hcall : call.Obeys Adds (fun _ => True) Scales)
include hcall

theorem addTerm {us : List (Expr α)} {t : Expr α} (h : call.addTerm ts t = .ok us) (hts : ∀ x ∈ ts, Orderly x)
    (ht : Orderly t) : ∀ u ∈ us, Orderly u := Calls.forall_addTerm (fun _ _ _ hm => hcall.add hm) h hts ht

theorem addToSum {b c : Expr α} (h : call.addToSum ts b = .ok c) (hts : ∀ x ∈ ts, Orderly x) (hb : Orderly b) :
    Orderly c := by
  obtain ⟨s, us, -, -, hus, rfl⟩ := Calls.addToSum_eq_ok h
  exact ofTerms (foldlM_keeps (P := fun ts => ∀ t ∈ ts, Orderly t) hus hts fun ts hts t ht ts' hts' =>
    addTerm hcall hts' hts (hb.terms t ht))

/-- Like products come out in normal form, as their common factors are without numbers. -/
theorem scaleFactors {v : α} {c : Expr α} (h : call.scaleFactors v fs = .ok c) (hloose : ∀ f ∈ fs, Loose f)
    (hf : ∀ f ∈ fs, Orderly f) : Orderly c := by
  rcases Calls.scaleFactors_cases h with ⟨-, rfl⟩ | ⟨-, ⟨-, rfl⟩ | ⟨f, rfl, hc⟩ | ⟨-, ⟨-, rfl⟩ | rfl⟩⟩
  · exact .const 0
  · exact .const v
  · have hf := hf f (List.mem_singleton.mpr rfl)
    rcases Calls.scaleFactor_cases hc with h | ⟨g, rfl, ⟨-, rfl⟩ | ⟨-, rfl⟩ | ⟨cells, -, rfl⟩⟩
    · exact hcall.scale h hf
    · exact hf
    · exact hf.neg
    · exact .matrix _
  · exact .product (.of_loose hloose) hf
  · exact .product (.cons_number v hloose) (List.forall_mem_cons.mpr ⟨.const v, hf⟩)

theorem adds_of_case {a b c : Expr α} (h : Calls.AddCase call a b c) : Adds a b c := by
  intro ha hb
  cases h with
  | grids => exact .matrix _
  | gridScalar => exact .matrix _
  | scalarGrid => exact .matrix _
  | zeroLeft => exact hb
  | zeroRight => exact ha.collapse
  | numbers => exact .const _
  | monomials => exact ofMonomial _
  | sumLeft _ h => exact addToSum hcall h ha.of_sum hb
  | sumRight _ _ h => exact addToSum hcall h hb.of_sum ha.collapse
  | products h =>
    rcases Calls.addProducts_cases h with h | ⟨-, h⟩
    · exact pair h ha hb
    · obtain ⟨hn, hf⟩ := ha.of_product
      exact scaleFactors hcall h (NormalFactors.splitFrom hn.flat) (splitFrom hf)
  | beside h => exact pair h ha.collapse hb

theorem scales_of_case {v : α} {e c : Expr α} (h : Calls.ScaleCase call v e c) : Scales v e c := by
  intro he
  cases h with
  | grid => exact .matrix _
  | zero => exact .const 0
  | one => exact he
  | minusOne => exact he.neg
  | number => exact .const _
  | monomial => exact ofMonomial _
  | sum hus h =>
    have hus := forall_mem_right hus fun x hx y hy => hcall.scale hy (he.of_sum x hx)
    exact Calls.keeps_sumOf (.const 0) (fun _ _ _ hm => hcall.add hm) h hus
  | product => exact mulConstant he.of_product.1 he.of_product.2

end

theorem obeys_upTo (n : Nat) : (Calls.upTo n).Obeys (Adds (α := α)) (fun _ => True) Scales :=
  Calls.obeys_upTo (fun hcall h => adds_of_case hcall h) (fun _ _ => trivial) (fun hcall h => scales_of_case hcall h) n

variable {a b c : Expr α}

theorem add (h : a.add b = .ok c) (ha : Orderly a) (hb : Orderly b) : Orderly c := by
  rcases settle_eq_ok h with h | h
  · exact (obeys_upTo (2 * (a.weight + b.weight) + 2)).add h ha hb
  · exact pair h ha hb

/-- Scaling a number or a product takes no further calls. -/
theorem scaleStep_eq_ok {call : Calls α} {v : α} (he : ¬ Loose e) : ∃ c, call.scaleStep v e = .ok c := by
  cases e with
  | const w =>
    unfold Calls.scaleStep
    dsimp only
    split
    · exact ⟨_, rfl⟩
    · split <;> exact ⟨_, rfl⟩
  | product fs =>
    unfold Calls.scaleStep
    dsimp only
    split
    · exact ⟨_, rfl⟩
    · split
      · exact ⟨_, rfl⟩
      · split <;> exact ⟨_, rfl⟩
  | _ => exact absurd ⟨nofun, nofun⟩ he

/-- So a product that is scaled never gets the number in front of another one. -/
theorem scale {v : α} (h : Expr.scale v e = .ok c) (he : Orderly e) : Orderly c := by
  by_cases hloose : Loose e
  · rcases settle_eq_ok h with h | h
    · exact (obeys_upTo (2 * e.weight + 2)).scale h he
    · have hfactors : e.factors = [e] := by
        cases e with
        | product fs => exact absurd rfl hloose.2
        | _ => rfl
      refine checkedProduct h ?_ ?_
      · rw [hfactors]
        exact .cons_number v (List.forall_mem_singleton.mpr hloose)
      · rw [hfactors]
        exact List.forall_mem_cons.mpr ⟨.const v, List.forall_mem_singleton.mpr he⟩
  · have hwithin : ∃ d, scaleWithin (2 * e.weight + 2) v e = .ok d := scaleStep_eq_ok hloose
    obtain ⟨d, hd⟩ := hwithin
    unfold Expr.scale at h
    rw [hd] at h
    cases h
    exact (obeys_upTo (2 * e.weight + 2)).scale hd he

theorem sumOf (h : Expr.sumOf ts = .ok c) (hts : ∀ t ∈ ts, Orderly t) : Orderly c :=
  keeps_sumOf (.const 0) (fun _ _ _ hm => add hm) h hts

theorem foldCross {t : Expr α} {us : List (Expr α)} (h : Expr.foldCross t ts = .ok us) (ht : Orderly t)
    (hts : ∀ x ∈ ts, Orderly x) : ∀ u ∈ us, Orderly u := forall_foldCross (fun _ _ _ hm => add hm) h ht hts

end Orderly

/-! ## Multiplication -/

section
variable [Scalar α]

theorem kind_ofMonomial (m : Monomial α) : (ofMonomial m).kind ≠ .product := by
  rcases ofMonomial_const_or_var m with ⟨v, hc⟩ | hc
  · exact hc ▸ nofun
  · exact hc ▸ nofun

/-- The power of a name that does not come down to a number. -/
theorem ofMonomial_bare (one : Scalar.nearZero (1 : α) = false) {m : Monomial α}
    (h : Scalar.nearZero m.exponent = false) : ofMonomial m.bare = .var m.bare := by
  simp [ofMonomial, Monomial.bare, one, h]

/-- Two powers of names come to a number, a power, or both beside one another behind a coefficient. -/
theorem mulMonomials_powers (one : Scalar.nearZero (1 : α) = false) {m n : Monomial α}
    (hm : Scalar.nearZero m.exponent = false) (hn : Scalar.nearZero n.exponent = false) :
    mulMonomials m n = .const 0 ∨ (∃ k, mulMonomials m n = ofMonomial k) ∨
      mulMonomials m n = .product [.var m.bare, .var n.bare] ∨
      ∃ v, mulMonomials m n = .product [.const v, .var m.bare, .var n.bare] := by
  have hcases := mulMonomials_cases m n
  rw [ofMonomial_bare one hm, ofMonomial_bare one hn] at hcases
  rcases hcases with ⟨-, hc⟩ | ⟨-, hc⟩ | ⟨-, hc⟩ | hc
  · exact Or.inr (Or.inl ⟨_, hc⟩)
  · exact Or.inl hc
  · exact Or.inr (Or.inr (Or.inl hc))
  · exact Or.inr (Or.inr (Or.inr ⟨_, hc⟩))

/-- An orderly tree in which no product outside of grids has a number among its factors, not even in
    front; the factors of its products are orderly. -/
inductive Bare : Expr α → Prop
  | const (v : α) : Bare (.const v)
  | var {m : Monomial α} : Scalar.nearZero m.exponent = false → Bare (.var m)
  | sum {ts : List (Expr α)} : (∀ t ∈ ts, Bare t) → Bare (.sum ts)
  | product {fs : List (Expr α)} : (∀ f ∈ fs, Loose f) → (∀ f ∈ fs, Orderly f) → Bare (.product fs)
  | matrix (g : Grid (Expr α)) : Bare (.matrix g)

namespace Bare

variable {e : Expr α} {fs ts : List (Expr α)}

theorem orderly (h : Bare e) : Orderly e := by
  induction h with
  | const v => exact .const v
  | var he => exact .var he
  | sum _ ih => exact .sum ih
  | product hloose hf => exact .product (.of_loose hloose) hf
  | matrix g => exact .matrix g

theorem of_sum (h : Bare (.sum ts)) : ∀ t ∈ ts, Bare t := by
  cases h
  assumption

/-- The factors of what is no number can be put behind others. -/
theorem loose_factors (h : Bare e) (hk : e.kind ≠ .constant) : ∀ f ∈ e.factors, Loose f := by
  cases h with
  | const v => exact absurd rfl hk
  | product hloose _ => exact hloose
  | _ => exact List.forall_mem_singleton.mpr ⟨nofun, nofun⟩

end Bare

namespace Orderly

variable {a b c : Expr α}

theorem chain (h : Expr.chain a b = .ok c) (ha : Orderly a) (hb : Bare b) (hk : b.kind ≠ .constant) : Orderly c := by
  obtain ⟨hn, hf⟩ := ha.factors
  exact checkedProduct h (hn.append (hb.loose_factors hk))
    (List.forall_mem_append.mpr ⟨hf, hb.orderly.factors.2⟩)

theorem prependFactor {fs : List (Expr α)} (h : Expr.prependFactor a fs = .ok c) (ha : Orderly a)
    (hk : a.kind ≠ .product) (hloose : ∀ f ∈ fs, Loose f) (hf : ∀ f ∈ fs, Orderly f) : Orderly c := by
  rcases prependFactor_cases h with ⟨v, -, rfl⟩ | ⟨-, h⟩
  · exact mulConstant (.of_loose hloose) hf
  · exact checkedProduct h (NormalFactors.cons_iff.mpr ⟨hk, hloose⟩) (List.forall_mem_cons.mpr ⟨ha, hf⟩)

variable (one : Scalar.nearZero (1 : α) = false)
include one

theorem mulMonomials {m n : Monomial α} (hm : Scalar.nearZero m.exponent = false)
    (hn : Scalar.nearZero n.exponent = false) : Orderly (mulMonomials m n) := by
  have hloose : ∀ f ∈ [Expr.var m.bare, Expr.var n.bare], Loose f := by simp [Loose, kind]
  have hf : ∀ f ∈ [Expr.var m.bare, Expr.var n.bare], Orderly f := by
    simpa using ⟨Orderly.var (m := m.bare) hm, Orderly.var (m := n.bare) hn⟩
  rcases mulMonomials_powers one hm hn with h | ⟨k, h⟩ | h | ⟨v, h⟩
  · exact h ▸ .const 0
  · exact h ▸ ofMonomial k
  · exact h ▸ .product (.of_loose hloose) hf
  · exact h ▸ .product (.cons_number v hloose) (List.forall_mem_cons.mpr ⟨.const v, hf⟩)

theorem mul_of_case (h : MulCase (fun x y z => x.mul y = .ok z ∧ (Orderly x → Bare y → Orderly z)) a b c)
    (ha : Orderly a) (hb : Bare b) : Orderly c := by
  cases h with
  | grids => exact .matrix _
  | gridScalar => exact .matrix _
  | scalarGrid => exact .matrix _
  | besideGrid _ hs hne h =>
    refine chain h ha hb fun hk => ?_
    cases b with
    | const v =>
      cases hs
      exact hne rfl
    | _ => cases hk
  | gridBeside _ _ _ h => exact chain h ha hb nofun
  | number _ h => exact scale h hb.orderly
  | monomialNumber => exact ofMonomial _
  | monomials => exact mulMonomials one ha.of_var hb.orderly.of_var
  | monomialProduct h =>
    exact prependFactor h (ofMonomial _) (kind_ofMonomial _) (hb.loose_factors nofun) hb.orderly.of_product.2
  | productNumber => exact mulConstant ha.of_product.1 ha.of_product.2
  | product hk h =>
    obtain ⟨hn, hf⟩ := ha.of_product
    have hk : b.kind ≠ .constant := by
      intro e
      rw [e] at hk
      rcases hk with hk | hk <;> cases hk
    exact checkedProduct h (hn.append (hb.loose_factors hk)) (List.forall_mem_append.mpr ⟨hf, hb.orderly.factors.2⟩)
  | intoRight _ hus h => exact sumOf h (forall_mem_right hus fun t ht u hu => hu.2 ha.collapse (hb.of_sum t ht))
  | intoLeft _ _ hus h => exact sumOf h (forall_mem_right hus fun t ht u hu => hu.2 (ha.of_sum t ht) hb)
  | sums hzs h =>
    have hzs := forall_mem_right hzs fun p hp z hz =>
      hz.2 (ha.of_sum _ (List.mem_product.mp hp).1) (hb.of_sum _ (List.mem_product.mp hp).2)
    refine ofTerms (foldlM_keeps (P := fun ts => ∀ t ∈ ts, Orderly t) h (List.forall_mem_nil _) ?_)
    exact fun ts hts z hz us hus => foldCross hus (hzs z hz) hts

/-- What an orderly tree is multiplied by is put behind it as it is, so it must be bare. -/
theorem mul (h : a.mul b = .ok c) (ha : Orderly a) (hb : Bare b) : Orderly c :=
  mul_induction (R := fun x y z => Orderly x → Bare y → Orderly z) (fun _ _ _ h => mul_of_case one h) h ha hb

omit one in
/-- A coefficient goes in front. -/
theorem mul_number {v : α} (h : Expr.mul (.const v) b = .ok c) (hb : Orderly b) : Orderly c := by
  have hcase := mul_cases (R := fun x y z => x.mul y = .ok z) (fun _ _ _ _ hz => hz) h
  cases hcase with
  | scalarGrid => exact .matrix _
  | gridBeside _ hs hne =>
    cases hs
    exact absurd rfl hne
  | number _ h => exact scale h hb
  | intoRight hk => rcases hk with hk | hk <;> cases hk

end Orderly

/-! ## Trees without sums -/

/-- A number, a power of a name, or a grid. -/
def Atom (f : Expr α) : Prop := Bare f ∧ f.kind ≠ .sum ∧ f.kind ≠ .product

/-- All factors of the tree are numbers, powers of names and grids. -/
def Atomic (e : Expr α) : Prop := ∀ f ∈ e.factors, Atom f

namespace Atom

variable {f : Expr α} {fs : List (Expr α)}

theorem const (v : α) : Atom (.const v) := ⟨.const v, nofun, nofun⟩

theorem var {m : Monomial α} (h : Scalar.nearZero m.exponent = false) : Atom (.var m) := ⟨.var h, nofun, nofun⟩

theorem matrix (g : Grid (Expr α)) : Atom (.matrix g) := ⟨.matrix g, nofun, nofun⟩

theorem of_var {m : Monomial α} (h : Atom (.var m)) : Scalar.nearZero m.exponent = false := h.1.orderly.of_var

theorem flipSign (h : Atom f) : Atom f.flipSign := by
  cases f with
  | const v => exact const _
  | var m => exact var h.of_var
  | _ => exact h

theorem atomic (h : Atom f) : Atomic f := by
  cases f with
  | product fs => exact absurd rfl h.2.2
  | _ => exact List.forall_mem_singleton.mpr h

end Atom

namespace Atomic

variable {a b c e : Expr α} {fs : List (Expr α)}

theorem const (v : α) : Atomic (.const v) := (Atom.const v).atomic

theorem matrix (g : Grid (Expr α)) : Atomic (.matrix g) := (Atom.matrix g).atomic

theorem not_sum {ts : List (Expr α)} (h : Atomic (.sum ts)) : False := (h _ (List.mem_singleton.mpr rfl)).2.1 rfl

theorem of_var {m : Monomial α} (h : Atomic (.var m)) : Scalar.nearZero m.exponent = false :=
  (h _ (List.mem_singleton.mpr rfl)).of_var

theorem cons_number (v : α) (h : ∀ f ∈ fs, Atom f) : Atomic (.product (.const v :: fs)) :=
  List.forall_mem_cons.mpr ⟨.const v, h⟩

theorem ofMonomial (m : Monomial α) : Atomic (ofMonomial m) := by
  rcases ofMonomial_cases m with ⟨-, hc⟩ | ⟨-, hc⟩ | ⟨-, he, hc⟩
  · exact hc ▸ const 0
  · exact hc ▸ const m.quantity
  · exact hc ▸ (Atom.var he).atomic

theorem checkedProduct (h : Expr.checkedProduct fs = .ok c) (hf : ∀ f ∈ fs, Atom f) : Atomic c := by
  obtain ⟨s, -, rfl⟩ := checkedProduct_eq_ok h
  exact hf

theorem chain (h : Expr.chain a b = .ok c) (ha : Atomic a) (hb : Atomic b) : Atomic c :=
  checkedProduct h (List.forall_mem_append.mpr ⟨ha, hb⟩)

theorem ofFactors (h : ∀ f ∈ fs, Atom f) : Atomic (ofFactors fs) := by
  rcases ofFactors_cases fs with ⟨-, hc⟩ | ⟨f, rfl, -⟩ | ⟨-, hc⟩
  · exact hc ▸ const 1
  · exact (h f (List.mem_singleton.mpr rfl)).atomic
  · rw [hc]
    exact h

theorem mulConstant {v : α} (h : ∀ f ∈ fs, Atom f) : Atomic (mulConstant v fs) := by
  rcases mulConstant_cases v fs with ⟨-, hc⟩ | ⟨-, hc⟩ | ⟨w, rest, rfl, ⟨-, hc⟩ | hc⟩ | ⟨-, hc⟩
  · exact hc ▸ const 0
  · rw [hc]
    exact h
  · exact hc ▸ ofFactors (List.forall_mem_cons.mp h).2
  · exact hc ▸ cons_number _ (List.forall_mem_cons.mp h).2
  · exact hc ▸ cons_number v h

theorem neg (h : Atomic e) : Atomic e.neg := by
  cases e with
  | const v => exact const _
  | var m => exact (Atom.var (m := m.neg) h.of_var).atomic
  | sum ts => exact h.not_sum.elim
  | product fs => exact forall_negFactors (fun _ => Atom.flipSign) (.const _) h
  | matrix g => exact matrix _

theorem additive : AdditiveLaws (α := α) (fun _ _ _ => True) (fun _ => True) (fun _ e c => Atomic e → Atomic c) where
  add _ _ := trivial
  isZero _ _ := trivial
  scale _ h he := by
    cases h with
    | grid => exact matrix _
    | zero => exact const 0
    | one => exact he
    | minusOne => exact he.neg
    | number => exact const _
    | monomial => exact ofMonomial _
    | sum => exact he.not_sum.elim
    | product => exact mulConstant he
  pair _ := trivial
  chain h he := chain h (const _) he

theorem scale {v : α} (h : Expr.scale v e = .ok c) (he : Atomic e) : Atomic c := additive.of_scale h he

theorem prependFactor (h : Expr.prependFactor a fs = .ok c) (ha : Atomic a) (hk : a.kind ≠ .product)
    (hf : ∀ f ∈ fs, Atom f) : Atomic c := by
  rcases prependFactor_cases h with ⟨v, -, rfl⟩ | ⟨-, h⟩
  · exact mulConstant hf
  · refine checkedProduct h (List.forall_mem_cons.mpr ⟨?_, hf⟩)
    cases a with
    | product fs => exact absurd rfl hk
    | _ => exact ha _ (List.mem_singleton.mpr rfl)

section
variable (one : Scalar.nearZero (1 : α) = false)
include one

theorem mulMonomials {m n : Monomial α} (hm : Scalar.nearZero m.exponent = false)
    (hn : Scalar.nearZero n.exponent = false) : Atomic (mulMonomials m n) := by
  have hf : ∀ f ∈ [Expr.var m.bare, Expr.var n.bare], Atom f :=
    List.forall_mem_cons.mpr ⟨.var hm, List.forall_mem_singleton.mpr (.var hn)⟩
  rcases mulMonomials_powers one hm hn with h | ⟨k, h⟩ | h | ⟨v, h⟩
  · exact h ▸ const 0
  · exact h ▸ ofMonomial k
  · exact h ▸ hf
  · exact h ▸ cons_number v hf

/-- Without sums nothing is distributed, so the factors are put side by side. -/
theorem mul (h : a.mul b = .ok c) (ha : Atomic a) (hb : Atomic b) : Atomic c := by
  have hcase := mul_cases (R := fun x y z => x.mul y = .ok z) (fun _ _ _ _ hz => hz) h
  cases hcase with
  | grids => exact matrix _
  | gridScalar => exact matrix _
  | scalarGrid => exact matrix _
  | besideGrid _ _ _ h => exact chain h ha hb
  | gridBeside _ _ _ h => exact chain h ha hb
  | number _ h => exact scale h hb
  | monomialNumber => exact ofMonomial _
  | monomials => exact mulMonomials one ha.of_var hb.of_var
  | monomialProduct h => exact prependFactor h (ofMonomial _) (kind_ofMonomial _) hb
  | productNumber => exact mulConstant ha
  | product _ h => exact checkedProduct h (List.forall_mem_append.mpr ⟨ha, hb⟩)
  | intoRight => exact hb.not_sum.elim
  | intoLeft => exact ha.not_sum.elim
  | sums => exact ha.not_sum.elim

end

end Atomic

/-- There is no sum in the tree outside of grids. -/
inductive SumFree : Expr α → Prop
  | const (v : α) : SumFree (.const v)
  | var (m : Monomial α) : SumFree (.var m)
  | product {fs : List (Expr α)} : (∀ f ∈ fs, SumFree f) → SumFree (.product fs)
  | matrix (g : Grid (Expr α)) : SumFree (.matrix g)

/-! ## Tidying -/

section
variable (one : Scalar.nearZero (1 : α) = false)
include one

theorem recombine_atomic {fs : List (Expr α)} {c : Expr α} (h : recombine fs = .ok c) (hf : ∀ f ∈ fs, Atom f) :
    Atomic c := by
  rcases recombine_eq_ok h with ⟨-, rfl⟩ | ⟨-, rfl⟩ | ⟨first, more, p, hr, hp, h⟩
  · exact .const 0
  · exact .const _
  · have hs : ∀ f ∈ (splitFrom 1 fs).2, Atom f := forall_splitFrom (fun _ hm => .var hm.of_var) hf
    rw [show (splitFrom 1 fs).2 = first :: more from hr] at hs
    obtain ⟨hfirst, hmore⟩ := List.forall_mem_cons.mp hs
    have hp : Atomic p := foldlM_keeps hp hfirst.atomic fun s hs f hf s' hmul => .mul one hmul hs (hmore f hf).atomic
    exact .mul one h (.const _) hp

/-- Nested products without sums are flattened. -/
theorem normalize_atomic {e c : Expr α} (h : normalize e = .ok c) (he : SumFree e) : Atomic c := by
  induction he generalizing c with
  | const v =>
    cases normalize_const.mp h
    exact .const v
  | var m =>
    cases normalize_var.mp h
    exact .ofMonomial m
  | product _ ih =>
    obtain ⟨gs, hgs, h⟩ := normalize_product.mp h
    exact recombine_atomic one h (forall_mem_spliced hgs fun x hx y hy => ih x hx hy)
  | matrix g =>
    obtain ⟨cells, -, rfl⟩ := normalize_matrix.mp h
    exact .matrix _

/-- Factors that are bare, and no products, are multiplied to an orderly tree. -/
theorem recombine_orderly {fs : List (Expr α)} {c : Expr α} (h : recombine fs = .ok c) (hf : ∀ f ∈ fs, Bare f) :
    Orderly c := by
  rcases recombine_eq_ok h with ⟨-, rfl⟩ | ⟨-, rfl⟩ | ⟨first, more, p, hr, hp, h⟩
  · exact .const 0
  · exact .const _
  · have hs : ∀ f ∈ (splitFrom 1 fs).2, Bare f := forall_splitFrom (fun _ hm => .var hm.orderly.of_var) hf
    rw [show (splitFrom 1 fs).2 = first :: more from hr] at hs
    obtain ⟨hfirst, hmore⟩ := List.forall_mem_cons.mp hs
    have hp : Orderly p := foldlM_keeps hp hfirst.orderly fun s hs f hf s' hmul => .mul one hmul hs (hmore f hf)
    exact .mul_number h hp

/-- A tidied product is in normal form, if its sums are bare: in them no product has a number or a
    product among its factors, and every monomial depends on its name. The products among its factors
    may be nested, without sums. -/
theorem normalize_normalFactors {e : Expr α} {ps : List (Expr α)}
    (he : ∀ f ∈ e.factors, SumFree f ∨ f.kind = .sum ∧ Bare f) (h : normalize e = .ok (.product ps)) :
    NormalFactors ps := by
  have hnot {m : Monomial α} : Expr.ofMonomial m ≠ .product ps := fun hm => kind_ofMonomial m (by rw [hm]; rfl)
  cases e with
  | const v => cases normalize_const.mp h
  | var m => exact absurd (normalize_var.mp h) hnot
  | sum ts => cases normalize_sum.mp h
  | matrix g =>
    obtain ⟨cells, -, hc⟩ := normalize_matrix.mp h
    cases hc
  | product fs =>
    obtain ⟨gs, hgs, h⟩ := normalize_product.mp h
    have hbare : ∀ g ∈ gs.flatMap factors, Bare g := by
      refine forall_mem_spliced hgs fun f hf g hg => ?_
      rcases he f hf with hsumfree | ⟨hk, hbare⟩
      · exact fun x hx => (normalize_atomic one hg hsumfree x hx).1
      · cases f with
        | sum ts =>
          cases normalize_sum.mp hg
          exact List.forall_mem_singleton.mpr hbare
        | _ => cases hk
    exact (recombine_orderly one h hbare).of_product.1

end

/-- Numbers are collected from nested products, and a product in a sum is put behind them. -/
theorem normalize_normalFactors_spread :
    let x : Expr ℚ := .ofName "x"
    let s : Expr ℚ := .sum [.product [.ofName "y", .ofName "z"], .const 0]
    ∃ ps, normalize (.product [.const 2, .product [x, .const 3], s]) = .ok (.product ps) ∧ NormalFactors ps := by
  intro x s
  have h : normalize (.product [.const 2, .product [x, .const 3], s]) =
      .ok (.product [.const 6, x, .ofName "y", .ofName "z"]) := by cbv
  have one : Scalar.nearZero (1 : ℚ) = false := by decide
  have hname (n : String) : Orderly (.ofName n : Expr ℚ) ∧ Loose (.ofName n : Expr ℚ) :=
    ⟨.var one, loose_var _⟩
  have hbare : Bare s := by
    refine .sum (List.forall_mem_cons.mpr ⟨.product ?_ ?_, List.forall_mem_singleton.mpr (.const 0)⟩)
    · simpa using ⟨(hname "y").2, (hname "z").2⟩
    · simpa using ⟨(hname "y").1, (hname "z").1⟩
  refine ⟨_, h, normalize_normalFactors one ?_ h⟩
  have hproduct : SumFree (.product [x, .const 3]) := by
    exact .product (List.forall_mem_cons.mpr ⟨.var _, List.forall_mem_singleton.mpr (.const 3)⟩)
  exact List.forall_mem_cons.mpr ⟨Or.inl (.const 2), List.forall_mem_cons.mpr
    ⟨Or.inl hproduct, List.forall_mem_singleton.mpr (Or.inr ⟨rfl, hbare⟩)⟩⟩

/-- A nested product in a sum stays nested, and a number in a sum does not come to the front. -/
theorem normalize_nests :
    let x : Expr ℚ := .ofName "x"
    let y : Expr ℚ := .ofName "y"
    let ab : Expr ℚ := .product [.ofName "a", .ofName "b"]
    (normalize (.product [x, .sum [.product [ab, y], .const 0]]) = .ok (.product [x, ab, y]) ∧ ¬ NormalFactors [x, ab, y]) ∧
      normalize (.product [x, .sum [.product [.const 2, y], .const 0]]) = .ok (.product [x, .const 2, y]) ∧
        ¬ NormalFactors [x, .const 2, y] := by
  intro x y ab
  refine ⟨⟨by cbv, fun h => h.flat ab (by simp) rfl⟩, by cbv, fun h => h.front (.const 2) (by simp) rfl⟩

end

end SymbolicAlgebra.Expr
