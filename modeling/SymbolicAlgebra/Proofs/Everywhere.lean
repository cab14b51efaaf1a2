/-
  SymbolicAlgebra.Proofs.Everywhere — conditions that hold at every node of a tree.

  A `Condition` asks something of the monomials of a tree and of the dimensions of its grids;
  `Everywhere` says that a tree meets it at all of its nodes. A condition that arithmetic does not
  break at a single node (`Condition.Kept`) is kept by every operation: `Everywhere.add`, `.mul`,
  `.neg`, and, if it holds of reciprocals too, `.div`, `.normalize` and `.substitute`.

  The names that occur in a tree are such a condition, and so are the grids that it may hold.
-/

import SymbolicAlgebra.Proofs.Outcomes.Substitute
import SymbolicAlgebra.Proofs.Outcomes.Div

namespace SymbolicAlgebra

/-- What is asked of a monomial, and of a grid of so many rows, columns and cells. -/
structure Condition (α : Type) where
  monomial : Monomial α → Prop
  grid : Nat → Nat → Nat → Prop

namespace Condition

variable {α : Type} [Scalar α]

/-- Arithmetic other than division keeps the condition wherever it makes a new node out of those it
    has. A quantity or an exponent as good as zero makes no monomial. -/
structure Kept (P : Condition α) : Prop where
  neg {m : Monomial α} : P.monomial m → P.monomial m.neg
  bare {m : Monomial α} : P.monomial m → P.monomial m.bare
  quantity {m : Monomial α} {q : α} : Scalar.nearZero q = false → P.monomial m → P.monomial { m with quantity := q }
  power {m n : Monomial α} {q : α} : Scalar.nearZero q = false → Scalar.nearZero (m.exponent + n.exponent) = false →
    m.name = n.name → P.monomial m → P.monomial n → P.monomial ⟨m.name, q, m.exponent + n.exponent⟩
  zip {r c k k' : Nat} : P.grid r c k → P.grid r c k' → P.grid r c (min k k')
  mul {r n c k k' : Nat} : P.grid r n k → P.grid n c k' → P.grid r c (r * c)

/-- Reciprocals keep the condition as well. -/
def Reciprocal (P : Condition α) : Prop :=
  ∀ m : Monomial α, Scalar.nearZero m.quantity = false → P.monomial m → P.monomial m.recip

end Condition

namespace Expr

variable {α : Type}

/-- Induction over the nodes of a tree. -/
@[induction_eliminator] theorem node_induction {motive : Expr α → Prop} (const : ∀ v, motive (.const v))
    (var : ∀ m, motive (.var m)) (sum : ∀ ts, (∀ t ∈ ts, motive t) → motive (.sum ts))
    (product : ∀ fs, (∀ f ∈ fs, motive f) → motive (.product fs))
    (matrix : ∀ g : Grid (Expr α), (∀ c ∈ g.cells, motive c) → motive (.matrix g)) (e : Expr α) : motive e := by
  suffices ∀ n, ∀ e : Expr α, e.size < n → motive e from this _ e (Nat.lt_succ_self _)
  intro n
  induction n with
  | zero => intro e he; omega
  | succ n ih =>
    intro e he
    have below {x : Expr α} (hx : x.size < e.size) : motive x := ih x (by omega)
    cases e with
    | const v => exact const v
    | var m => exact var m
    | sum ts => exact sum ts fun t ht => below (size_term_lt ht)
    | product fs => exact product fs fun f hf => below (size_factor_lt hf)
    | matrix g => exact matrix g fun c hc => below (size_cell_lt hc)

/-- Induction that does not ask for the kind of a node. -/
theorem children_induction {motive : Expr α → Prop} (node : ∀ e, (∀ c ∈ e.children, motive c) → motive e) (e : Expr α) :
    motive e := by
  induction e with
  | const v => exact node _ (List.forall_mem_nil _)
  | var m => exact node _ (List.forall_mem_nil _)
  | sum ts ih => exact node _ ih
  | product fs ih => exact node _ ih
  | matrix g ih => exact node _ ih

/-- The tree `x` is a node of the tree `e`: it is all of `e`, or a node of one of its children. -/
inductive Occurs (x : Expr α) : Expr α → Prop
  | root : Occurs x x
  | child {e c : Expr α} : c ∈ e.children → Occurs x c → Occurs x e

theorem occurs_iff {x e : Expr α} : Occurs x e ↔ x = e ∨ ∃ c ∈ e.children, Occurs x c := by
  constructor
  · intro h
    cases h with
    | root => exact Or.inl rfl
    | child hc h => exact Or.inr ⟨_, hc, h⟩
  · intro h
    rcases h with rfl | ⟨c, hc, h⟩
    · exact .root
    · exact .child hc h

section
variable {x : Expr α}

@[simp] theorem occurs_const {v : α} : Occurs x (.const v) ↔ x = .const v := by
  rw [occurs_iff]
  simp [children]

@[simp] theorem occurs_var {m : Monomial α} : Occurs x (.var m) ↔ x = .var m := by
  rw [occurs_iff]
  simp [children]

@[simp] theorem occurs_sum {ts : List (Expr α)} : Occurs x (.sum ts) ↔ x = .sum ts ∨ ∃ t ∈ ts, Occurs x t := occurs_iff

@[simp] theorem occurs_product {fs : List (Expr α)} : Occurs x (.product fs) ↔ x = .product fs ∨ ∃ f ∈ fs, Occurs x f :=
  occurs_iff

@[simp] theorem occurs_matrix {g : Grid (Expr α)} : Occurs x (.matrix g) ↔ x = .matrix g ∨ ∃ c ∈ g.cells, Occurs x c :=
  occurs_iff

end

theorem negAll_eq_map [Scalar α] (es : List (Expr α)) : negAll es = es.map Expr.neg := by
  induction es with
  | nil => rfl
  | cons e es ih => simp [negAll, ih]

/-! ## Factors that all meet a condition -/

section
variable [Scalar α] {P : Expr α → Prop} {fs gs : List (Expr α)}

theorem forall_splitFrom (bare : ∀ m, P (.var m) → P (.var m.bare)) {v : α} (h : ∀ f ∈ fs, P f) :
    ∀ f ∈ (splitFrom v fs).2, P f := by
  induction fs generalizing v with
  | nil => intro f hf; cases hf
  | cons f fs ih =>
    obtain ⟨hf, hfs⟩ := List.forall_mem_cons.mp h
    cases f with
    | const w => exact ih hfs
    | var m => exact List.forall_mem_cons.mpr ⟨bare m hf, ih hfs⟩
    | _ => exact List.forall_mem_cons.mpr ⟨hf, ih hfs⟩

theorem updateFirst?_eq_some {β : Type} {p : β → Bool} {f : β → β} {xs ys : List β} (h : updateFirst? p f xs = some ys) :
    ∃ us x vs, xs = us ++ x :: vs ∧ p x = true ∧ ys = us ++ f x :: vs := by
  induction xs generalizing ys with
  | nil => cases h
  | cons x xs ih =>
    simp only [updateFirst?] at h
    split at h
    · rename_i hx
      cases h
      exact ⟨[], x, xs, rfl, hx, rfl⟩
    · obtain ⟨zs, hzs, rfl⟩ := Option.map_eq_some_iff.mp h
      obtain ⟨us, u, vs, rfl, hu, rfl⟩ := ih hzs
      exact ⟨x :: us, u, vs, rfl, hu, rfl⟩

/-- A negated product has one number or monomial with the other sign, or a new `-1` in front if it has
    neither. -/
theorem negFactors_cases (fs : List (Expr α)) :
    (∃ xs f ys, fs = xs ++ f :: ys ∧ f.isNumeric = true ∧ negFactors fs = xs ++ f.flipSign :: ys) ∨
      fs.any isNumeric = false ∧ negFactors fs = .const (-1) :: fs := by
  unfold negFactors
  split
  · rename_i gs hgs
    obtain ⟨xs, f, ys, rfl, hf, rfl⟩ := updateFirst?_eq_some hgs
    refine Or.inl ⟨xs, f, ys, rfl, ?_, rfl⟩
    cases f with
    | const v => rfl
    | var m => rfl
    | _ => cases hf
  · cases hn : updateFirst? isNumeric flipSign fs with
    | some gs => exact Or.inl (updateFirst?_eq_some hn)
    | none => exact Or.inr ⟨updateFirst?_eq_none hn, rfl⟩

theorem forall_negFactors (flip : ∀ e, P e → P e.flipSign) (minus : P (.const (-1))) (h : ∀ f ∈ fs, P f) :
    ∀ f ∈ negFactors fs, P f := by
  rcases negFactors_cases fs with ⟨xs, f, ys, rfl, -, hneg⟩ | ⟨-, hneg⟩
  · rw [List.forall_mem_append, List.forall_mem_cons] at h
    rw [hneg, List.forall_mem_append, List.forall_mem_cons]
    exact ⟨h.1, flip f h.2.1, h.2.2⟩
  · rw [hneg]
    exact List.forall_mem_cons.mpr ⟨minus, h⟩

end

/-! ## Conditions at every node -/

/-- Every node of the tree meets the condition. -/
inductive Everywhere (P : Condition α) : Expr α → Prop
  | const (v : α) : Everywhere P (.const v)
  | var {m : Monomial α} : P.monomial m → Everywhere P (.var m)
  | sum {ts : List (Expr α)} : (∀ t ∈ ts, Everywhere P t) → Everywhere P (.sum ts)
  | product {fs : List (Expr α)} : (∀ f ∈ fs, Everywhere P f) → Everywhere P (.product fs)
  | matrix {g : Grid (Expr α)} : P.grid g.rows g.cols g.cells.length → (∀ c ∈ g.cells, Everywhere P c) →
      Everywhere P (.matrix g)

namespace Everywhere

variable {P : Condition α}

attribute [simp] const

@[simp] theorem var_iff {m : Monomial α} : Everywhere P (.var m) ↔ P.monomial m :=
  ⟨fun h => by cases h; assumption, .var⟩

@[simp] theorem sum_iff {ts : List (Expr α)} : Everywhere P (.sum ts) ↔ ∀ t ∈ ts, Everywhere P t :=
  ⟨fun h => by cases h; assumption, .sum⟩

@[simp] theorem product_iff {fs : List (Expr α)} : Everywhere P (.product fs) ↔ ∀ f ∈ fs, Everywhere P f :=
  ⟨fun h => by cases h; assumption, .product⟩

@[simp] theorem matrix_iff {g : Grid (Expr α)} :
    Everywhere P (.matrix g) ↔ P.grid g.rows g.cols g.cells.length ∧ ∀ c ∈ g.cells, Everywhere P c :=
  ⟨fun h => by cases h with | matrix hg hc => exact ⟨hg, hc⟩, fun h => .matrix h.1 h.2⟩

theorem children {e : Expr α} (h : Everywhere P e) : ∀ c ∈ e.children, Everywhere P c := by
  cases h with
  | sum h => exact h
  | product h => exact h
  | matrix _ h => exact h
  | _ => exact List.forall_mem_nil _

theorem of_occurs {x e : Expr α} (ho : Occurs x e) (h : Everywhere P e) : Everywhere P x := by
  induction ho with
  | root => exact h
  | child hc _ ih => exact ih (h.children _ hc)

/-- The condition at every node is one on the monomials and the grids that occur. -/
theorem iff_occurs {e : Expr α} : Everywhere P e ↔ (∀ m, Occurs (.var m) e → P.monomial m) ∧
    ∀ g, Occurs (.matrix g) e → P.grid g.rows g.cols g.cells.length := by
  constructor
  · intro h
    exact ⟨fun m ho => var_iff.mp (h.of_occurs ho), fun g ho => (matrix_iff.mp (h.of_occurs ho)).1⟩
  · intro h
    induction e with
    | const v => exact .const v
    | var m => exact .var (h.1 m .root)
    | sum ts ih =>
      exact .sum fun t ht => ih t ht ⟨fun m ho => h.1 m (.child ht ho), fun g ho => h.2 g (.child ht ho)⟩
    | product fs ih =>
      exact .product fun f hf => ih f hf ⟨fun m ho => h.1 m (.child hf ho), fun g ho => h.2 g (.child hf ho)⟩
    | matrix g ih =>
      exact .matrix (h.2 g .root) fun c hc =>
        ih c hc ⟨fun m ho => h.1 m (.child hc ho), fun k ho => h.2 k (.child hc ho)⟩

/-- A condition that asks less holds wherever one that asks more does. -/
theorem mono {Q : Condition α} (hm : ∀ m, P.monomial m → Q.monomial m) (hg : ∀ r c k, P.grid r c k → Q.grid r c k)
    {e : Expr α} (h : Everywhere P e) : Everywhere Q e := by
  induction h with
  | const v => exact .const v
  | var h => exact .var (hm _ h)
  | sum _ ih => exact .sum ih
  | product _ ih => exact .product ih
  | matrix h _ ih => exact .matrix (hg _ _ _ h) ih

/-- Two conditions that hold everywhere hold together. -/
theorem combine {Q R : Condition α} (hm : ∀ m, P.monomial m → Q.monomial m → R.monomial m)
    (hg : ∀ r c k, P.grid r c k → Q.grid r c k → R.grid r c k) {e : Expr α} (h : Everywhere P e) (h' : Everywhere Q e) :
    Everywhere R e := by
  induction h with
  | const v => exact .const v
  | var h => exact .var (hm _ h (var_iff.mp h'))
  | sum _ ih => exact .sum fun t ht => ih t ht (sum_iff.mp h' t ht)
  | product _ ih => exact .product fun f hf => ih f hf (product_iff.mp h' f hf)
  | matrix h _ ih =>
    obtain ⟨hg', hcells⟩ := matrix_iff.mp h'
    exact .matrix (hg _ _ _ h hg') fun c hc => ih c hc (hcells c hc)

/-! ## Building trees -/

theorem terms {e : Expr α} (h : Everywhere P e) : ∀ t ∈ e.terms, Everywhere P t := by
  cases e with
  | sum ts => exact sum_iff.mp h
  | _ => exact fun t ht => List.mem_singleton.mp ht ▸ h

theorem factors {e : Expr α} (h : Everywhere P e) : ∀ f ∈ e.factors, Everywhere P f := by
  cases e with
  | product fs => exact product_iff.mp h
  | _ => exact fun f hf => List.mem_singleton.mp hf ▸ h

theorem pair {a b c : Expr α} (h : pair a b = .ok c) (ha : Everywhere P a) (hb : Everywhere P b) : Everywhere P c := by
  obtain ⟨s, -, -, rfl⟩ := pair_eq_ok h
  simp [ha, hb]

theorem checkedProduct {fs : List (Expr α)} {c : Expr α} (h : checkedProduct fs = .ok c)
    (hf : ∀ f ∈ fs, Everywhere P f) : Everywhere P c := by
  obtain ⟨s, -, rfl⟩ := checkedProduct_eq_ok h
  exact product_iff.mpr hf

theorem chain {a b c : Expr α} (h : chain a b = .ok c) (ha : Everywhere P a) (hb : Everywhere P b) : Everywhere P c := by
  refine checkedProduct h fun f hf => ?_
  rcases List.mem_append.mp hf with hf | hf
  · exact factors ha f hf
  · exact factors hb f hf

variable [Scalar α]

theorem ofFactors {fs : List (Expr α)} (h : ∀ f ∈ fs, Everywhere P f) : Everywhere P (ofFactors fs) := by
  rcases ofFactors_cases fs with ⟨-, hc⟩ | ⟨f, rfl, -⟩ | ⟨-, hc⟩
  · exact hc ▸ .const 1
  · exact h f (List.mem_singleton.mpr rfl)
  · exact hc ▸ .product h

theorem factorRange {fs : List (Expr α)} {start stop : Nat} {c : Expr α} (h : factorRange fs start stop = .ok c)
    (hf : ∀ f ∈ fs, Everywhere P f) : Everywhere P c := by
  obtain ⟨gs, hgs, rfl⟩ := factorRange_eq_ok h
  exact ofFactors fun g hg => hf g (hgs hg)

theorem ofTerms {ts : List (Expr α)} (h : ∀ t ∈ ts, Everywhere P t) : Everywhere P (ofTerms ts) := by
  rcases ofTerms_cases ts with ⟨-, hc⟩ | ⟨t, rfl, -⟩ | ⟨-, hc⟩
  · exact hc ▸ .const 0
  · exact h t (List.mem_singleton.mpr rfl)
  · exact hc ▸ .sum h

/-- A monomial that stays one has neither a quantity nor an exponent as good as zero. -/
theorem ofMonomial {m : Monomial α}
    (h : Scalar.nearZero m.quantity = false → Scalar.nearZero m.exponent = false → P.monomial m) :
    Everywhere P (ofMonomial m) := by
  rcases ofMonomial_cases m with ⟨-, hc⟩ | ⟨-, hc⟩ | ⟨hq, he, hc⟩
  · exact hc ▸ .const 0
  · exact hc ▸ .const m.quantity
  · exact hc ▸ .var (h hq he)

theorem collapse {e : Expr α} (h : Everywhere P e) : Everywhere P e.collapse := by
  cases e with
  | var m => exact ofMonomial fun _ _ => var_iff.mp h
  | _ => exact h

theorem mulConstant {v : α} {fs : List (Expr α)} (h : ∀ f ∈ fs, Everywhere P f) : Everywhere P (mulConstant v fs) := by
  rcases mulConstant_cases v fs with ⟨-, hc⟩ | ⟨-, hc⟩ | ⟨w, rest, rfl, ⟨-, hc⟩ | hc⟩ | ⟨-, hc⟩
  · exact hc ▸ .const 0
  · exact hc ▸ .product h
  · exact hc ▸ ofFactors (List.forall_mem_cons.mp h).2
  · exact hc ▸ .product (List.forall_mem_cons.mpr ⟨.const _, (List.forall_mem_cons.mp h).2⟩)
  · exact hc ▸ .product (List.forall_mem_cons.mpr ⟨.const v, h⟩)

theorem prependFactor {a c : Expr α} {fs : List (Expr α)} (h : prependFactor a fs = .ok c) (ha : Everywhere P a)
    (hf : ∀ f ∈ fs, Everywhere P f) : Everywhere P c := by
  rcases prependFactor_cases h with ⟨v, -, rfl⟩ | ⟨-, h⟩
  · exact mulConstant hf
  · exact checkedProduct h (List.forall_mem_cons.mpr ⟨ha, hf⟩)

theorem splitFrom (hP : P.Kept) {v : α} {fs : List (Expr α)} (h : ∀ f ∈ fs, Everywhere P f) :
    ∀ f ∈ (splitFrom v fs).2, Everywhere P f := forall_splitFrom (fun _ hm => .var (hP.bare (var_iff.mp hm))) h

/-! ## Negation -/

theorem flipSign (hP : P.Kept) {e : Expr α} (h : Everywhere P e) : Everywhere P e.flipSign := by
  cases e with
  | const v => exact .const _
  | var m => exact .var (hP.neg (var_iff.mp h))
  | _ => exact h

theorem negFactors (hP : P.Kept) {fs : List (Expr α)} (h : ∀ f ∈ fs, Everywhere P f) :
    ∀ f ∈ negFactors fs, Everywhere P f := forall_negFactors (fun _ => flipSign hP) (.const _) h

theorem neg (hP : P.Kept) {e : Expr α} (h : Everywhere P e) : Everywhere P e.neg := by
  induction h with
  | const v => exact .const _
  | var h => exact .var (hP.neg h)
  | sum _ ih =>
    rw [Expr.neg, negAll_eq_map]
    exact .sum (List.forall_mem_map.mpr ih)
  | product h _ => exact .product (negFactors hP h)
  | @matrix g hg _ ih =>
    rw [Expr.neg, negAll_eq_map]
    exact .matrix (by simpa using hg) (List.forall_mem_map.mpr ih)

/-! ## Addition and scaling -/

/-- A tree made of two trees that meet the condition meets it. -/
def Closed (P : Condition α) (a b c : Expr α) : Prop := Everywhere P a → Everywhere P b → Everywhere P c

omit [Scalar α] in
theorem cells {xs ys : List (Expr α)} {f : Expr α → Expr α → Prop} (h : List.Forall₂ f xs ys)
    (hf : ∀ x ∈ xs, ∀ y, f x y → Everywhere P y) {r c : Nat} (hg : P.grid r c xs.length) :
    Everywhere P (.matrix ⟨r, c, ys⟩) :=
  .matrix (by rw [← h.length_eq]; exact hg) (forall_mem_right h hf)

section
variable {call : Calls α} {Z : Expr α → Prop}

omit [Scalar α] in
theorem addTerm (hcall : call.Obeys (Closed P) Z fun _ e c => Everywhere P e → Everywhere P c)
    {ts us : List (Expr α)} {t : Expr α} (h : call.addTerm ts t = .ok us) (hts : ∀ x ∈ ts, Everywhere P x)
    (ht : Everywhere P t) : ∀ u ∈ us, Everywhere P u := Calls.forall_addTerm (fun _ _ _ hm => hcall.add hm) h hts ht

theorem addToSum (hcall : call.Obeys (Closed P) Z fun _ e c => Everywhere P e → Everywhere P c)
    {ts : List (Expr α)} {b c : Expr α} (h : call.addToSum ts b = .ok c) (hts : ∀ x ∈ ts, Everywhere P x)
    (hb : Everywhere P b) : Everywhere P c := by
  obtain ⟨s, us, -, -, hus, rfl⟩ := Calls.addToSum_eq_ok h
  exact ofTerms (foldlM_keeps (P := fun ts => ∀ t ∈ ts, Everywhere P t) hus hts fun ts hts t ht ts' hts' =>
    addTerm hcall hts' hts (terms hb t ht))

theorem scaleFactors (hP : P.Kept) (hcall : call.Obeys (Closed P) Z fun _ e c => Everywhere P e → Everywhere P c)
    {v : α} {fs : List (Expr α)} {c : Expr α} (h : call.scaleFactors v fs = .ok c) (hf : ∀ f ∈ fs, Everywhere P f) :
    Everywhere P c := by
  rcases Calls.scaleFactors_cases h with ⟨-, rfl⟩ | ⟨-, ⟨-, rfl⟩ | ⟨f, rfl, hc⟩ | ⟨-, ⟨-, rfl⟩ | rfl⟩⟩
  · exact .const 0
  · exact .const v
  · have hf := hf f (List.mem_singleton.mpr rfl)
    rcases Calls.scaleFactor_cases hc with h | ⟨g, rfl, ⟨-, rfl⟩ | ⟨-, rfl⟩ | ⟨cs, hcs, rfl⟩⟩
    · exact hcall.scale h hf
    · exact hf
    · exact neg hP hf
    · obtain ⟨hg, hc⟩ := matrix_iff.mp hf
      exact cells hcs (fun x hx y hy => hcall.scale hy (hc x hx)) hg
  · exact .product hf
  · exact .product (List.forall_mem_cons.mpr ⟨.const v, hf⟩)

theorem addCase (hP : P.Kept) (hcall : call.Obeys (Closed P) Z fun _ e c => Everywhere P e → Everywhere P c)
    {a b c : Expr α} (h : Calls.AddCase call a b c) : Closed P a b c := by
  intro ha hb
  cases h with
  | @grids g h cs hs hcs =>
    obtain ⟨hg, hga⟩ := matrix_iff.mp ha
    obtain ⟨hh, hhb⟩ := matrix_iff.mp hb
    obtain ⟨hr, hc⟩ : g.rows = h.rows ∧ g.cols = h.cols := by simpa [Grid.shape] using hs
    rw [← hr, ← hc] at hh
    refine .matrix ?_ (forall_mem_right hcs fun p hp y hy => ?_)
    · rw [← hcs.length_eq, List.length_zip]
      exact hP.zip hg hh
    · exact hcall.add hy (hga _ (List.of_mem_zip hp).1) (hhb _ (List.of_mem_zip hp).2)
  | gridScalar _ _ hcs =>
    obtain ⟨hg, hc⟩ := matrix_iff.mp ha
    exact cells hcs (fun x hx y hy => hcall.add hy (hc x hx) hb) hg
  | scalarGrid _ _ hcs =>
    obtain ⟨hg, hc⟩ := matrix_iff.mp hb
    exact cells hcs (fun x hx y hy => hcall.add hy ha (hc x hx)) hg
  | zeroLeft => exact hb
  | zeroRight => exact collapse ha
  | numbers => exact .const _
  | monomials => exact ofMonomial fun hq _ => hP.quantity hq (var_iff.mp ha)
  | sumLeft _ h => exact addToSum hcall h (sum_iff.mp ha) hb
  | sumRight _ _ h => exact addToSum hcall h (sum_iff.mp hb) (collapse ha)
  | products h =>
    rcases Calls.addProducts_cases h with h | ⟨-, h⟩
    · exact pair h ha hb
    · exact scaleFactors hP hcall h (splitFrom hP (product_iff.mp ha))
  | beside h => exact pair h (collapse ha) hb

theorem scaleCase (hP : P.Kept) (hcall : call.Obeys (Closed P) Z fun _ e c => Everywhere P e → Everywhere P c)
    {v : α} {e c : Expr α} (h : Calls.ScaleCase call v e c) (he : Everywhere P e) : Everywhere P c := by
  cases h with
  | grid hcs =>
    obtain ⟨hg, hc⟩ := matrix_iff.mp he
    exact cells hcs (fun x hx y hy => hcall.scale hy (hc x hx)) hg
  | zero => exact .const 0
  | one => exact he
  | minusOne => exact neg hP he
  | number => exact .const _
  | monomial => exact ofMonomial fun hq _ => hP.quantity hq (var_iff.mp he)
  | sum hus h =>
    have hus := forall_mem_right hus fun x hx y hy => hcall.scale hy (sum_iff.mp he x hx)
    exact Calls.keeps_sumOf (.const 0) (fun _ _ _ hm => hcall.add hm) h hus
  | product => exact mulConstant (product_iff.mp he)

end

theorem additive (hP : P.Kept) :
    AdditiveLaws (Closed P) (fun _ => True) fun _ e c => Everywhere P e → Everywhere P c where
  add hcall h := addCase hP hcall h
  isZero _ _ := trivial
  scale hcall h := scaleCase hP hcall h
  pair h ha hb := pair h ha hb
  chain h he := chain h (.const _) he

theorem add (hP : P.Kept) {a b c : Expr α} (h : a.add b = .ok c) (ha : Everywhere P a) (hb : Everywhere P b) :
    Everywhere P c := (additive hP).of_add h ha hb

theorem scale (hP : P.Kept) {v : α} {e c : Expr α} (h : Expr.scale v e = .ok c) (he : Everywhere P e) :
    Everywhere P c := (additive hP).of_scale h he

theorem sub (hP : P.Kept) {a b c : Expr α} (h : a.sub b = .ok c) (ha : Everywhere P a) (hb : Everywhere P b) :
    Everywhere P c := add hP h ha (neg hP hb)

theorem sumOf (hP : P.Kept) {ts : List (Expr α)} {c : Expr α} (h : sumOf ts = .ok c) (hts : ∀ t ∈ ts, Everywhere P t) :
    Everywhere P c := keeps_sumOf (.const 0) (fun _ _ _ hm => add hP hm) h hts

/-! ## Multiplication -/

theorem mulMonomials (hP : P.Kept) {m n : Monomial α} (hm : P.monomial m) (hn : P.monomial n) :
    Everywhere P (mulMonomials m n) := by
  have bare : ∀ f ∈ [Expr.ofMonomial m.bare, Expr.ofMonomial n.bare], Everywhere P f := by
    simpa using ⟨ofMonomial fun _ _ => hP.bare hm, ofMonomial fun _ _ => hP.bare hn⟩
  rcases mulMonomials_cases m n with ⟨hname, hc⟩ | ⟨-, hc⟩ | ⟨-, hc⟩ | hc
  · exact hc ▸ ofMonomial fun hq he => hP.power hq he hname hm hn
  · exact hc ▸ .const 0
  · exact hc ▸ .product bare
  · exact hc ▸ .product (List.forall_mem_cons.mpr ⟨.const _, bare⟩)

theorem dot (hP : P.Kept) {ps : List (Expr α × Expr α)} {c d : Expr α}
    (h : Dot (fun x y z => x.mul y = .ok z ∧ Closed P x y z) ps c d)
    (hps : ∀ p ∈ ps, Everywhere P p.1 ∧ Everywhere P p.2) (hc : Everywhere P c) : Everywhere P d :=
  h.keeps (fun _ _ _ hm => add hP hm) (fun p hp _ hz => hz.2 (hps p hp).1 (hps p hp).2) hc

theorem foldCross (hP : P.Kept) {t : Expr α} {ts us : List (Expr α)} (h : foldCross t ts = .ok us)
    (ht : Everywhere P t) (hts : ∀ x ∈ ts, Everywhere P x) : ∀ u ∈ us, Everywhere P u :=
  forall_foldCross (fun _ _ _ hm => add hP hm) h ht hts

theorem mulCase (hP : P.Kept) {a b c : Expr α} (h : MulCase (fun x y z => x.mul y = .ok z ∧ Closed P x y z) a b c) :
    Closed P a b c := by
  intro ha hb
  cases h with
  | @grids g h cs hd hcs =>
    obtain ⟨hg, hga⟩ := matrix_iff.mp ha
    obtain ⟨hh, hhb⟩ := matrix_iff.mp hb
    rw [← hd] at hh
    refine .matrix ?_ (forall_mem_right hcs fun p _ y hy => dot hP hy (fun q hq => ?_) (.const 0))
    · rw [← hcs.length_eq, Shape.length_places]
      exact hP.mul hg hh
    · obtain ⟨hx, hy⟩ := List.of_mem_zip hq
      exact ⟨hga _ (Grid.mem_cells_of_mem_row hx),
        hhb _ (Grid.mem_cells_of_mem_transpose (Grid.mem_cells_of_mem_row hy))⟩
  | gridScalar _ _ hcs =>
    obtain ⟨hg, hc⟩ := matrix_iff.mp ha
    exact cells hcs (fun x hx y hy => hy.2 (hc x hx) hb) hg
  | scalarGrid _ _ hcs =>
    obtain ⟨hg, hc⟩ := matrix_iff.mp hb
    exact cells hcs (fun x hx y hy => hy.2 ha (hc x hx)) hg
  | besideGrid _ _ _ h => exact chain h ha hb
  | gridBeside _ _ _ h => exact chain h ha hb
  | number _ h => exact scale hP h hb
  | monomialNumber => exact ofMonomial fun hq _ => hP.quantity hq (var_iff.mp ha)
  | monomials => exact mulMonomials hP (var_iff.mp ha) (var_iff.mp hb)
  | monomialProduct h => exact prependFactor h (collapse ha) (product_iff.mp hb)
  | productNumber => exact mulConstant (product_iff.mp ha)
  | product _ h => exact checkedProduct h (List.forall_mem_append.mpr ⟨product_iff.mp ha, factors hb⟩)
  | intoRight _ hus h => exact sumOf hP h (forall_mem_right hus fun t ht u hu => hu.2 (collapse ha) (sum_iff.mp hb t ht))
  | intoLeft _ _ hus h => exact sumOf hP h (forall_mem_right hus fun t ht u hu => hu.2 (sum_iff.mp ha t ht) hb)
  | sums hzs h =>
    have hzs := forall_mem_right hzs fun p hp z hz =>
      hz.2 (sum_iff.mp ha _ (List.mem_product.mp hp).1) (sum_iff.mp hb _ (List.mem_product.mp hp).2)
    refine ofTerms (foldlM_keeps (P := fun ts => ∀ t ∈ ts, Everywhere P t) h (by simp) ?_)
    exact fun ts hts z hz us hus => foldCross hP hus (hzs z hz) hts

theorem mul (hP : P.Kept) {a b c : Expr α} (h : a.mul b = .ok c) (ha : Everywhere P a) (hb : Everywhere P b) :
    Everywhere P c := mul_induction (R := Closed P) (fun _ _ _ h => mulCase hP h) h ha hb

theorem mulTimes (hP : P.Kept) {v e c : Expr α} {n : Nat} (h : mulTimes v n e = .ok c) (hv : Everywhere P v)
    (he : Everywhere P e) : Everywhere P c := by
  rw [mulTimes_eq_foldlM] at h
  exact foldlM_keeps h he fun s hs x hx s' hmul => mul hP hmul hs (List.eq_of_mem_replicate hx ▸ hv)

/-! ## Division

A divisor gets into the quotient through reciprocals only, and so may meet a condition of its own. -/

section
variable {Q : Condition α} (hP : P.Kept)
  (hr : ∀ m : Monomial α, Scalar.nearZero m.quantity = false → Q.monomial m → P.monomial m.recip)
include hr

theorem recipMonomial {m n : Monomial α} (h : recipMonomial m = .ok n) (hm : Q.monomial m) :
    P.monomial n := by
  unfold Expr.recipMonomial at h
  split at h
  · simp at h
  · rename_i hq
    cases pure_eq_ok.mp h
    exact hr m (by simpa using hq) hm

include hP

theorem divMonomials {m n : Monomial α} {c : Expr α}
    (h : divMonomials m n = .ok c) (hm : P.monomial m) (hn : Q.monomial n) : Everywhere P c := by
  obtain ⟨r, hn', h⟩ := bind_eq_ok.mp h
  cases pure_eq_ok.mp h
  exact mulMonomials hP hm (recipMonomial hr hn' hn)

theorem divFactors {fs : List (Expr α)} {n : Monomial α} {c : Expr α}
    (h : divFactors fs n = .ok c) (hf : ∀ f ∈ fs, Everywhere P f) (hn : Q.monomial n) : Everywhere P c := by
  rcases divFactors_cases h with ⟨r, hn', h⟩ | ⟨xs, m, ys, q, rfl, hq, h⟩
  · exact checkedProduct h (List.forall_mem_append.mpr ⟨hf, by simpa using recipMonomial hr hn' hn⟩)
  · obtain ⟨hxs, hm⟩ := List.forall_mem_append.mp hf
    obtain ⟨hm, hys⟩ := List.forall_mem_cons.mp hm
    have hq := divMonomials hP hr hq (var_iff.mp hm) hn
    rcases h with ⟨v, rfl, h⟩ | rfl
    · have hrest := List.forall_mem_append.mpr ⟨hxs, hys⟩
      exact foldlM_keeps h hq fun s hs x hx s' hs' => mul hP hs' hs (hrest x hx)
    · exact .product (List.forall_mem_append.mpr ⟨hxs, List.forall_mem_cons.mpr ⟨hq, hys⟩⟩)

theorem divCase {a b c : Expr α}
    (h : DivCase (fun x y z => div x y = .ok z ∧ (Everywhere P x → Everywhere Q y → Everywhere P z)) a b c)
    (ha : Everywhere P a) (hb : Everywhere Q b) : Everywhere P c := by
  cases h with
  | grid _ hcs =>
    obtain ⟨hg, hc⟩ := matrix_iff.mp ha
    exact cells hcs (fun x hx y hy => hy.2 (hc x hx) hb) hg
  | numbers => exact .const _
  | zeroNumber => exact .const _
  | numberMonomial hn => exact ofMonomial fun hq _ => hP.quantity hq (recipMonomial hr hn (var_iff.mp hb))
  | monomialNumber => exact ofMonomial fun hq _ => hP.quantity hq (var_iff.mp ha)
  | monomials h => exact divMonomials hP hr h (var_iff.mp ha) (var_iff.mp hb)
  | productNumber => exact mulConstant (product_iff.mp ha)
  | productMonomial h => exact divFactors hP hr h (product_iff.mp ha) (var_iff.mp hb)
  | byProduct _ _ h => exact h.keeps (collapse ha) fun g hg q q' hq ha => hq.2 ha (product_iff.mp hb g hg)
  | sum _ hus h => exact sumOf hP h (forall_mem_right hus fun t ht u hu => hu.2 (sum_iff.mp ha t ht) hb)

theorem div {a b c : Expr α} (h : a.div b = .ok c) (ha : Everywhere P a) (hb : Everywhere Q b) : Everywhere P c :=
  div_induction (R := fun x y z => Everywhere P x → Everywhere Q y → Everywhere P z)
    (fun _ _ _ _ _ h => divCase hP hr h) h ha hb

end

/-! ## Substitution and tidying -/

theorem expand (hP : P.Kept) (hr : P.Reciprocal) {m : Monomial α} {v c : Expr α} (h : expand m v = .ok c)
    (hv : Everywhere P v) : Everywhere P c := by
  obtain ⟨-, ⟨-, rfl⟩ | ⟨n, p, q, -, hp, hq, hc⟩⟩ := expand_eq_ok h
  · exact .const _
  · have hp := mulTimes hP hp hv hv
    have hq : Everywhere P q := by
      rcases hq with ⟨-, rfl⟩ | ⟨-, hq⟩
      · exact hp
      · exact div hP hr hq (.const 1) hp
    rcases hc with ⟨-, rfl⟩ | hc
    · exact hq
    · exact mul hP hc (.const _) hq

/-- Monomials of the name that is replaced need not meet the condition. -/
theorem substitute (hP : P.Kept) (hr : P.Reciprocal) {e v c : Expr α} {name : String}
    (h : substitute e name v = .ok c) (he : Everywhere ⟨fun m => m.name ≠ name → P.monomial m, P.grid⟩ e)
    (hv : Everywhere P v) : Everywhere P c := by
  induction he generalizing c with
  | const w =>
    cases substitute_const.mp h
    exact .const w
  | var hm =>
    rcases substitute_var h with ⟨-, h⟩ | ⟨hn, rfl⟩
    · exact expand hP hr h hv
    · exact .var (hm hn)
  | sum _ ih =>
    obtain ⟨us, hus, rfl⟩ := substitute_sum.mp h
    exact .sum (forall_mem_right hus fun x hx y hy => ih x hx hy)
  | product _ ih =>
    obtain ⟨gs, hgs, rfl⟩ := substitute_product.mp h
    exact .product (forall_mem_right hgs fun x hx y hy => ih x hx hy)
  | matrix hg _ ih =>
    obtain ⟨cs, hcs, rfl⟩ := substitute_matrix.mp h
    exact cells hcs (fun x hx y hy => ih x hx hy) hg

theorem recombine (hP : P.Kept) {fs : List (Expr α)} {c : Expr α} (h : recombine fs = .ok c)
    (hf : ∀ f ∈ fs, Everywhere P f) : Everywhere P c := by
  rcases recombine_eq_ok h with ⟨-, rfl⟩ | ⟨-, rfl⟩ | ⟨first, more, p, hr, hp, h⟩
  · exact .const 0
  · exact .const _
  · have hs := splitFrom (v := 1) hP hf
    rw [show (Expr.splitFrom 1 fs).2 = first :: more from hr] at hs
    obtain ⟨hfirst, hmore⟩ := List.forall_mem_cons.mp hs
    exact mul hP h (.const _) (foldlM_keeps hp hfirst fun s hs x hx s' hs' => mul hP hs' hs (hmore x hx))

theorem normalize (hP : P.Kept) {e c : Expr α} (h : normalize e = .ok c) (he : Everywhere P e) : Everywhere P c := by
  induction he generalizing c with
  | const v =>
    cases normalize_const.mp h
    exact .const v
  | var hm =>
    cases normalize_var.mp h
    exact ofMonomial fun _ _ => hm
  | sum hts _ =>
    cases normalize_sum.mp h
    exact .sum hts
  | product _ ih =>
    obtain ⟨hs, hhs, h⟩ := normalize_product.mp h
    exact recombine hP h (forall_mem_spliced hhs fun x hx y hy => factors (ih x hx hy))
  | matrix hg _ ih =>
    obtain ⟨cs, hcs, rfl⟩ := normalize_matrix.mp h
    exact cells hcs (fun x hx y hy => ih x hx hy) hg

end Everywhere

end Expr

end SymbolicAlgebra
