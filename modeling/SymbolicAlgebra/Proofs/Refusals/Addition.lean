/-
  SymbolicAlgebra.Proofs.Refusals.Addition — why values of one shape are not always added.

  All that addition can object to is a shape. Values that have a shape, with single numbers in the cells
  of their grids (`Neat`), add up to one that has it too, but for one exception: a zero may have lost its
  shape (`NeatOrZero`), and is refused by a sum of matrices (`Lost`). Single numbers have no other shape
  to lose.

  This is shown for one step whose calls are answered so (`Calls.Reliable`), or not at all. Whether zeros
  may get lost among the calls is up to a parameter, `lossy`.
-/

import SymbolicAlgebra.Proofs.Shapes.Arithmetic

namespace SymbolicAlgebra

/-! ## Computations that are refused for known reasons -/

section
variable {β : Type} {allowed : ArithError → Prop} {Q : β → Prop}

/-- The computation runs out of steps, or is refused for one of these reasons. -/
def Stopped (allowed : ArithError → Prop) : Stop → Prop
  | .outOfSteps => True
  | .refused x => allowed x

theorem Stopped.imp {allowed' : ArithError → Prop} (ha : ∀ x, allowed x → allowed' x) :
    ∀ e, Stopped allowed e → Stopped allowed' e
  | .outOfSteps, h => h
  | .refused x, h => ha x h

/-- A plain operation inside a bounded computation. -/
theorem Ends.lift {x : Except ArithError β} (h : Ends allowed Q x) : Ends (Stopped allowed) Q (liftM x) := by
  cases x with
  | ok b => exact h
  | error e => exact h

/-- A plain operation that succeeds. -/
theorem Succeeds.lift {x : Except ArithError β} (h : Succeeds Q x) : Ends (Stopped allowed) Q (liftM x) :=
  Ends.lift (h.allow fun _ => False.elim)

theorem Ends.of_lift {x : Except ArithError β} (h : Ends (Stopped allowed) Q (liftM x)) : Ends allowed Q x := by
  cases x with
  | ok b => exact h
  | error e => exact h

end

/-- A zero that has lost the shape `s` is added to a sum that has it. -/
def Lost (lossy : Prop) (s : Shape) (x : ArithError) : Prop :=
  lossy ∧ s ≠ .scalar ∧ x = .dimensionMismatch .add s .scalar

theorem not_lost_scalar {lossy : Prop} {x : ArithError} : ¬ Lost lossy .scalar x := fun h => h.2.1 rfl

theorem Lost.imp {lossy lossy' : Prop} (h : lossy → lossy') {s : Shape} {x : ArithError} (hx : Lost lossy s x) :
    Lost lossy' s x :=
  ⟨h hx.1, hx.2⟩

namespace Expr

variable {α : Type}

/-! ## Trees with single numbers in their cells -/

/-- The tree has the shape `s` and every node of it has a shape, that of a single number where it is
    a cell. -/
inductive Neat : Shape → Expr α → Prop
  | const (v : α) : Neat .scalar (.const v)
  | var (m : Monomial α) : Neat .scalar (.var m)
  | sum {s : Shape} {ts : List (Expr α)} : (Expr.sum ts).shape = .ok s → (∀ t ∈ ts, Neat s t) → Neat s (.sum ts)
  | product {s : Shape} {fs : List (Expr α)} : factorsShape none fs = .ok s →
      (∀ f ∈ fs, ∀ x, f.shape = .ok x → Neat x f) → Neat s (.product fs)
  | matrix {g : Grid (Expr α)} : (∀ c ∈ g.cells, Neat .scalar c) → Neat g.shape (.matrix g)

namespace Neat

variable {s t : Shape} {e : Expr α} {fs ts : List (Expr α)}

theorem shape (h : Neat s e) : e.shape = .ok s := by
  cases h with
  | const v => rfl
  | var m => rfl
  | sum hs _ => exact hs
  | product hs _ => exact hs
  | matrix _ => rfl

theorem shaped (h : Neat s e) : Shaped e := by
  induction h with
  | const v => exact .const v
  | var m => exact .var m
  | sum hs _ ih => exact .sum hs ih
  | product hs _ ih =>
    refine .product hs fun f hf => ?_
    obtain ⟨x, hx⟩ := exists_shape_of_factorsShape hs f hf
    exact ih f hf x hx
  | matrix _ ih => exact .matrix ih

theorem of_sum (h : Neat s (.sum ts)) : ∀ t ∈ ts, Neat s t := by
  cases h with
  | sum _ h => exact h

theorem of_product (h : Neat s (.product fs)) : factorsShape none fs = .ok s ∧ ∀ f ∈ fs, ∃ x, Neat x f := by
  cases h with
  | product hs h =>
    refine ⟨hs, fun f hf => ?_⟩
    obtain ⟨x, hx⟩ := exists_shape_of_factorsShape hs f hf
    exact ⟨x, h f hf x hx⟩

theorem of_matrix {g : Grid (Expr α)} (h : Neat s (.matrix g)) : g.shape = s ∧ ∀ c ∈ g.cells, Neat .scalar c := by
  cases h with
  | matrix h => exact ⟨rfl, h⟩

theorem of_terms (hne : ts ≠ []) (h : ∀ t ∈ ts, Neat s t) : Neat s (.sum ts) :=
  .sum (shape_sum_eq_ok.mpr ⟨fun e => absurd e hne, fun t ht => (h t ht).shape⟩) h

theorem of_factors (hs : factorsShape none fs = .ok s) (h : ∀ f ∈ fs, ∃ x, Neat x f) : Neat s (.product fs) := by
  refine .product hs fun f hf x hx => ?_
  obtain ⟨y, hy⟩ := h f hf
  rw [hy.shape] at hx
  cases hx
  exact hy

theorem cells {r k : Nat} {cs : List (Expr α)} (h : ∀ c ∈ cs, Neat .scalar c) : Neat ⟨r, k⟩ (.matrix ⟨r, k, cs⟩) :=
  matrix (g := ⟨r, k, cs⟩) h

theorem factors (h : Neat s e) : factorsShape none e.factors = .ok s ∧ ∀ f ∈ e.factors, ∃ x, Neat x f := by
  refine ⟨by rw [factorsShape_factors, h.shape], ?_⟩
  cases e with
  | product fs => exact h.of_product.2
  | _ => exact fun f hf => List.mem_singleton.mp hf ▸ ⟨s, h⟩

/-- The only factor of a product has the shape of the product. -/
theorem only_factor {f : Expr α} (hs : factorsShape none [f] = .ok s) (h : ∀ x ∈ [f], ∃ x', Neat x' x) : Neat s f := by
  obtain ⟨x, hx⟩ := h f (List.mem_singleton.mpr rfl)
  rw [factorsShape_single, hx.shape] at hs
  cases hs
  exact hx

section
variable [Scalar α]

theorem ofMonomial (m : Monomial α) : Neat .scalar (ofMonomial m) := by
  rcases ofMonomial_const_or_var m with ⟨v, hc⟩ | hc
  · exact hc ▸ .const v
  · exact hc ▸ .var m

theorem ofFactors (hs : factorsShape none fs = .ok s) (h : ∀ f ∈ fs, ∃ x, Neat x f) : Neat s (ofFactors fs) := by
  rcases ofFactors_cases fs with ⟨rfl, -⟩ | ⟨f, rfl, -⟩ | ⟨-, hc⟩
  · cases hs
    exact .const 1
  · exact only_factor hs h
  · exact hc ▸ .of_factors hs h

theorem collapse (h : Neat s e) : Neat s e.collapse := by
  cases e with
  | var m =>
    cases h
    exact ofMonomial m
  | _ => exact h

theorem flipSign {f : Expr α} (h : ∃ x, Neat x f) : ∃ x, Neat x f.flipSign := by
  cases f with
  | const v => exact ⟨_, .const _⟩
  | var m => exact ⟨_, .var _⟩
  | _ => exact h

theorem neg (h : Neat s e) : Neat s e.neg := by
  induction e generalizing s with
  | const v =>
    cases h
    exact .const _
  | var m =>
    cases h
    exact .var _
  | sum ts ih =>
    have hs : (Expr.sum ts).neg.shape = .ok s := by rw [shape_neg, h.shape]
    rw [Expr.neg, negAll_eq_map] at hs ⊢
    exact .sum hs (List.forall_mem_map.mpr fun t ht => ih t ht (h.of_sum t ht))
  | product fs _ =>
    obtain ⟨hs, hf⟩ := h.of_product
    exact of_factors (by rw [factorsShape_negFactors, hs]) (forall_negFactors (fun _ => flipSign) ⟨_, .const _⟩ hf)
  | matrix g ih =>
    obtain ⟨rfl, hc⟩ := h.of_matrix
    rw [Expr.neg, negAll_eq_map]
    exact cells (List.forall_mem_map.mpr fun c hc' => ih c hc' (hc c hc'))

theorem splitFrom {v : α} (h : Neat s (.product fs)) :
    factorsShape none (splitFrom v fs).2 = .ok s ∧ ∀ f ∈ (splitFrom v fs).2, ∃ x, Neat x f := by
  obtain ⟨hs, hf⟩ := h.of_product
  exact ⟨by rw [factorsShape_splitFrom, hs], forall_splitFrom (fun m _ => ⟨_, .var _⟩) hf⟩

omit [Scalar α] in
theorem scaled (v : α) (hs : factorsShape none fs = .ok s) (hf : ∀ f ∈ fs, ∃ x, Neat x f) :
    Neat s (.product (.const v :: fs)) :=
  of_factors hs (List.forall_mem_cons.mpr ⟨⟨_, .const v⟩, hf⟩)

theorem mulMonomials (m n : Monomial α) : Neat .scalar (mulMonomials m n) := by
  have hbare : Neat .scalar (.product [Expr.ofMonomial m.bare, Expr.ofMonomial n.bare]) := by
    refine of_factors (factorsShape_scalar ?_) ?_
    · simp [shape_ofMonomial]
    · simpa using ⟨⟨_, ofMonomial _⟩, ⟨_, ofMonomial _⟩⟩
  rcases mulMonomials_cases m n with ⟨-, hc⟩ | ⟨-, hc⟩ | ⟨-, hc⟩ | hc
  · exact hc ▸ ofMonomial _
  · exact hc ▸ .const 0
  · exact hc ▸ hbare
  · exact hc ▸ scaled _ hbare.of_product.1 hbare.of_product.2

end

end Neat

variable [Scalar α]

/-- The value has the shape, with single numbers in its cells, or is a number as good as zero. -/
def NeatOrZero (s : Shape) (e : Expr α) : Prop := Neat s e ∨ e.NearZero

/-- There is a zero of this shape. -/
def HasZero (α : Type) [Scalar α] (s : Shape) : Prop := s = .scalar ∨ Scalar.nearZero (0 : α) = true

theorem NearZero.kind {e : Expr α} (h : e.NearZero) : e.kind = .constant := by
  obtain ⟨v, rfl, -⟩ := h
  rfl

theorem NearZero.neat {e : Expr α} (h : e.NearZero) : Neat .scalar e := by
  obtain ⟨v, rfl, -⟩ := h
  exact .const v

omit [Scalar α] in
theorem checkedProduct_eq {s : Shape} {fs : List (Expr α)} (h : Neat s (.product fs)) :
    checkedProduct fs = .ok (.product fs) := by
  unfold checkedProduct
  rw [h.of_product.1]
  rfl

namespace NeatOrZero

variable {s : Shape} {e : Expr α} {fs ts : List (Expr α)}

theorem neat (h : NeatOrZero s e) (hz : ¬ e.NearZero) : Neat s e := h.resolve_right hz

theorem neat_scalar (h : NeatOrZero .scalar e) : Neat .scalar e := h.elim id NearZero.neat

/-- A value is a single number, or has the shape. -/
theorem cases (h : NeatOrZero s e) : Neat .scalar e ∨ s ≠ .scalar ∧ Neat s e := by
  by_cases hs : s = .scalar
  · subst hs
    exact Or.inl h.neat_scalar
  · exact h.symm.imp NearZero.neat fun h => ⟨hs, h⟩

theorem neat_of_kind (h : NeatOrZero s e) (hk : e.kind ≠ .constant) : Neat s e := by
  refine h.neat ?_
  rintro ⟨v, rfl, -⟩
  exact hk rfl

variable (hs : HasZero α s)
include hs

theorem zero : NeatOrZero s (.const (0 : α)) := by
  rcases hs with rfl | hz
  · exact Or.inl (.const 0)
  · exact Or.inr ⟨0, rfl, hz⟩

theorem ofTerms (h : ∀ t ∈ ts, Neat s t) : NeatOrZero s (ofTerms ts) := by
  rcases ofTerms_cases ts with ⟨-, hc⟩ | ⟨t, rfl, -⟩ | ⟨hlength, hc⟩
  · exact hc ▸ zero hs
  · exact Or.inl (h t (List.mem_singleton.mpr rfl))
  · exact hc ▸ Or.inl (Neat.of_terms (List.ne_nil_of_length_pos (by omega)) h)

theorem mulConstant {v : α} (h : Neat s (.product fs)) : NeatOrZero s (mulConstant v fs) := by
  obtain ⟨hshape, hf⟩ := h.of_product
  rcases mulConstant_cases v fs with ⟨-, hc⟩ | ⟨-, hc⟩ | ⟨w, rest, rfl, hc⟩ | ⟨-, hc⟩
  · exact hc ▸ zero hs
  · exact hc ▸ Or.inl h
  · obtain ⟨-, hrest⟩ := List.forall_mem_cons.mp hf
    have hshape : factorsShape none rest = .ok s := hshape
    rcases hc with ⟨-, hc⟩ | hc
    · exact hc ▸ Or.inl (Neat.ofFactors hshape hrest)
    · exact hc ▸ Or.inl (.scaled _ hshape hrest)
  · exact hc ▸ Or.inl (.scaled v hshape hf)

end NeatOrZero

/-! ## Addition -/

/-- Two values of one shape side by side. -/
theorem pair_neat {s : Shape} {a b : Expr α} (ha : Neat s a) (hb : Neat s b) : Succeeds (NeatOrZero s) (pair a b) := by
  have hpair : pair a b = .ok (.sum [a, b]) := by
    unfold pair
    rw [ha.shape, hb.shape, ok_bind, ok_bind, if_pos rfl]
    rfl
  rw [hpair]
  exact Or.inl (.of_terms (List.cons_ne_nil a [b]) (by simpa using ⟨ha, hb⟩))

namespace Calls

/-- The terms that an offer leaves. -/
def Offer.terms : Offer α → List (Expr α)
  | merged ts => ts
  | grouped ts => ts
  | apart => []

/-- Cells are single numbers, among which no zero is lost. -/
theorem cells {lossy : Prop} {s : Shape} {β : Type} {f : β → Except Stop (Expr α)} {xs : List β}
    (h : ∀ x ∈ xs, Ends (Stopped (Lost lossy .scalar)) (NeatOrZero .scalar) (f x)) :
    Ends (Stopped (Lost lossy s)) (fun cs => ∀ c ∈ cs, Neat .scalar c) (xs.mapM f) := by
  refine Ends.mapM fun x hx => ((h x hx).imp fun c hc => hc.neat_scalar).allow fun e he => ?_
  cases e with
  | outOfSteps => trivial
  | refused e => exact (not_lost_scalar he).elim

theorem mapCells {lossy : Prop} {s : Shape} {f : Expr α → Except Stop (Expr α)} {g : Grid (Expr α)}
    (h : ∀ c ∈ g.cells, Ends (Stopped (Lost lossy .scalar)) (NeatOrZero .scalar) (f c)) :
    Ends (Stopped (Lost lossy s)) (NeatOrZero g.shape) (do return .matrix (← g.mapM f)) := by
  have hmap : Ends (Stopped (Lost lossy s)) (fun k => k.shape = g.shape ∧ ∀ c ∈ k.cells, Neat .scalar c) (g.mapM f) :=
    (cells h).bind fun cs hcs => ⟨rfl, hcs⟩
  exact hmap.bind fun k hk => Or.inl (hk.1 ▸ .matrix hk.2)

/-- The operations are refused on values of one shape for nothing but a lost zero. -/
structure Reliable (lossy : Prop) (call : Calls α) : Prop where
  add {s : Shape} {a b : Expr α} : HasZero α s → NeatOrZero s a → NeatOrZero s b →
    Ends (Stopped (Lost lossy s)) (NeatOrZero s) (call.add a b)
  isZero (e : Expr α) : Ends (· = .outOfSteps) (fun z => e.NearZero → z = true) (call.isZero e)
  scale {s : Shape} {v : α} {e : Expr α} : HasZero α s → Neat s e →
    Ends (Stopped (Lost lossy s)) (NeatOrZero s) (call.scale v e)

namespace Reliable

variable {lossy : Prop} {call : Calls α} (hcall : call.Reliable lossy)
include hcall

/-- A value that is not found to be zero has its shape. -/
theorem testZero {β : Type} {s : Shape} {e : Expr α} {Q : β → Prop} {f : Bool → Except Stop β} (he : NeatOrZero s e)
    (hzero : Ends (Stopped (Lost lossy s)) Q (f true)) (hneat : Neat s e → Ends (Stopped (Lost lossy s)) Q (f false)) :
    Ends (Stopped (Lost lossy s)) Q (call.isZero e >>= f) := by
  refine ((hcall.isZero e).allow fun x hx => by subst hx; trivial).bind fun z hz => ?_
  cases z with
  | true => exact hzero
  | false => exact hneat (he.neat fun h => Bool.false_ne_true (hz h))

variable {s : Shape} (hs : HasZero α s)
include hs

theorem offer {t : Expr α} (ht : Neat s t) {ns : List String} {ts : List (Expr α)} (hts : ∀ x ∈ ts, Neat s x) :
    Ends (Stopped (Lost lossy s)) (fun o => ∀ u ∈ o.terms, Neat s u) (call.offer t ns ts) := by
  induction ts with
  | nil => exact List.forall_mem_nil _
  | cons x xs ih =>
    obtain ⟨hx, hxs⟩ := List.forall_mem_cons.mp hts
    unfold Calls.offer
    split
    · refine (ih hxs).bind fun o ho => ?_
      cases o with
      | merged us => exact List.forall_mem_cons.mpr ⟨hx, ho⟩
      | grouped us => exact List.forall_mem_cons.mpr ⟨hx, ho⟩
      | apart => exact List.forall_mem_nil _
    · refine (hcall.add hs (Or.inl hx) (Or.inl ht)).bind fun m hm => ?_
      split
      · have hm := hm.neat_of_kind (by simp [kind])
        refine (ih hxs).bind fun o ho => ?_
        cases o with
        | merged us => exact List.forall_mem_cons.mpr ⟨hx, ho⟩
        | grouped us => exact List.forall_mem_cons.mpr ⟨hm, hxs⟩
        | apart => exact List.forall_mem_cons.mpr ⟨hm, hxs⟩
      · exact hcall.testZero hm hxs fun hm => List.forall_mem_cons.mpr ⟨hm, hxs⟩

theorem addTerm {ts : List (Expr α)} (hts : ∀ x ∈ ts, Neat s x) {t : Expr α} (ht : NeatOrZero s t) :
    Ends (Stopped (Lost lossy s)) (fun us => ∀ u ∈ us, Neat s u) (call.addTerm ts t) := by
  unfold Calls.addTerm
  refine hcall.testZero ht hts fun ht => ?_
  refine (hcall.offer hs ht hts).bind fun o ho => ?_
  cases o with
  | merged us => exact ho
  | grouped us => exact ho
  | apart => exact List.forall_mem_append.mpr ⟨hts, by simpa using ht⟩

omit hs in
theorem addUnlike {a b : Expr α} (ha : Neat s a) (hb : NeatOrZero s b) :
    Ends (Stopped (Lost lossy s)) (NeatOrZero s) (call.addUnlike a b) := by
  unfold Calls.addUnlike
  exact hcall.testZero hb (Or.inl ha) fun hb => (pair_neat ha hb).lift

/-- Only a zero that has lost its shape is refused by a sum. -/
theorem addToSum {ts : List (Expr α)} (hts : Neat s (.sum ts)) {b : Expr α} (hb : NeatOrZero s b)
    (hlossy : s ≠ .scalar → b.NearZero → lossy) :
    Ends (Stopped (Lost lossy s)) (NeatOrZero s) (call.addToSum ts b) := by
  have hone (t : Expr α) (ht : NeatOrZero s t) :
      Ends (Stopped (Lost lossy s)) (NeatOrZero s) (do return Expr.ofTerms (← call.addTerm ts t)) :=
    (hcall.addTerm hs hts.of_sum ht).bind fun us hus => NeatOrZero.ofTerms hs hus
  have hshape : ∃ r, b.shape = .ok r ∧ (s ≠ r → r = .scalar ∧ b.NearZero) := by
    rcases hb with hb | hb
    · exact ⟨s, hb.shape, fun hne => absurd rfl hne⟩
    · exact ⟨.scalar, hb.neat.shape, fun _ => ⟨rfl, hb⟩⟩
  obtain ⟨r, hr, hlost⟩ := hshape
  unfold Calls.addToSum
  refine Ends.bind (Q := (s = ·)) (by rw [hts.shape]; rfl) ?_
  rintro _ rfl
  refine Ends.bind (Q := (r = ·)) (by rw [hr]; rfl) ?_
  rintro _ rfl
  by_cases hsr : s = r
  · rw [if_neg (not_not_intro hsr)]
    cases b with
    | sum us =>
      have hus := (hb.neat_of_kind (by simp [kind])).of_sum
      refine Ends.bind (Ends.foldlM hts.of_sum fun ts hts u hu => hcall.addTerm hs hts (Or.inl (hus u hu))) ?_
      exact fun us hus => NeatOrZero.ofTerms hs hus
    | _ => exact hone _ hb
  · obtain ⟨rfl, hzero⟩ := hlost hsr
    rw [if_pos hsr]
    exact ⟨hlossy hsr hzero, hsr, rfl⟩

omit hs in
theorem sumOf {ts : List (Expr α)} (hs : HasZero α s) (hts : ∀ x ∈ ts, NeatOrZero s x) :
    Ends (Stopped (Lost lossy s)) (NeatOrZero s) (call.sumOf ts) := by
  cases ts with
  | nil => exact NeatOrZero.zero hs
  | cons t ts =>
    obtain ⟨ht, hts⟩ := List.forall_mem_cons.mp hts
    exact Ends.foldlM ht fun u hu x hx => hcall.add hs hu (hts x hx)

theorem scaleFactors {v : α} {fs : List (Expr α)} (hfs : factorsShape none fs = .ok s) (hf : ∀ f ∈ fs, ∃ x, Neat x f) :
    Ends (Stopped (Lost lossy s)) (NeatOrZero s) (call.scaleFactors v fs) := by
  unfold Calls.scaleFactors
  split
  · exact NeatOrZero.zero hs
  · split
    · cases hfs
      exact Or.inl (.const v)
    · rename_i f
      have hf := Neat.only_factor hfs hf
      unfold Calls.scaleFactor
      split
      · rename_i g
        obtain ⟨rfl, hcells⟩ := hf.of_matrix
        split
        · exact Or.inl hf
        · split
          · exact Or.inl hf.neg
          · exact mapCells fun c hc => hcall.scale (Or.inl rfl) (hcells c hc)
      · exact hcall.scale hs hf
    · show NeatOrZero s (.product _)
      split
      · exact Or.inl (.of_factors hfs hf)
      · exact Or.inl (.scaled v hfs hf)

theorem addProducts {fs gs : List (Expr α)} (hfs : Neat s (.product fs)) (hgs : Neat s (.product gs)) :
    Ends (Stopped (Lost lossy s)) (NeatOrZero s) (call.addProducts fs gs) := by
  unfold Calls.addProducts
  dsimp only
  split
  · obtain ⟨hrest, hf⟩ := hfs.splitFrom (v := 1)
    exact hcall.scaleFactors hs hrest hf
  · exact (pair_neat hfs hgs).lift

omit hs in
/-- A single number goes into the cells of a grid, anything else stands beside it. -/
theorem addToGrid {g : Grid (Expr α)} (hg : Neat s (.matrix g)) {b : Expr α} (hb : NeatOrZero s b) :
    Ends (Stopped (Lost lossy s)) (NeatOrZero s) (call.addToGrid g b) := by
  obtain ⟨rfl, hcells⟩ := hg.of_matrix
  unfold Calls.addToGrid
  rcases hb.cases with hb | ⟨hs, hb⟩
  · refine Ends.bind (Q := (Shape.scalar = ·)) (by rw [hb.shape]; rfl) ?_
    rintro _ rfl
    exact mapCells fun c hc => hcall.add (Or.inl rfl) (Or.inl (hcells c hc)) (Or.inl hb)
  · refine Ends.bind (Q := (g.shape = ·)) (by rw [hb.shape]; rfl) ?_
    rintro _ rfl
    rw [if_neg (mt Shape.isScalar_iff.mp hs), if_pos rfl]
    exact (pair_neat hg hb).lift

omit hs in
theorem addGridTo {a : Expr α} (ha : NeatOrZero s a) {g : Grid (Expr α)} (hg : Neat s (.matrix g)) :
    Ends (Stopped (Lost lossy s)) (NeatOrZero s) (call.addGridTo a g) := by
  obtain ⟨rfl, hcells⟩ := hg.of_matrix
  unfold Calls.addGridTo
  rcases ha.cases with ha | ⟨hs, ha⟩
  · refine Ends.bind (Q := (Shape.scalar = ·)) (by rw [ha.shape]; rfl) ?_
    rintro _ rfl
    exact mapCells fun c hc => hcall.add (Or.inl rfl) (Or.inl ha) (Or.inl (hcells c hc))
  · refine Ends.bind (Q := (g.shape = ·)) (by rw [ha.shape]; rfl) ?_
    rintro _ rfl
    rw [if_neg (mt Shape.isScalar_iff.mp hs), if_pos rfl]
    exact (pair_neat ha hg).lift

theorem addStep {a b : Expr α} (ha : NeatOrZero s a) (hb : NeatOrZero s b)
    (hlossy : a.kind = .sum → s ≠ .scalar → b.NearZero → lossy) :
    Ends (Stopped (Lost lossy s)) (NeatOrZero s) (call.addStep a b) := by
  unfold Calls.addStep
  split
  · rename_i g h
    obtain ⟨hg, hcells⟩ := (ha.neat_of_kind (by simp [kind])).of_matrix
    obtain ⟨hh, hcells'⟩ := (hb.neat_of_kind (by simp [kind])).of_matrix
    rw [if_pos (hg.trans hh.symm)]
    have hzip : Ends (Stopped (Lost lossy s)) (fun k => k.shape = g.shape ∧ ∀ c ∈ k.cells, Neat .scalar c)
        (g.zipM call.add h) := by
      refine (cells fun p hp => ?_).bind fun cs hcs => ⟨rfl, hcs⟩
      obtain ⟨hx, hy⟩ := List.of_mem_zip hp
      exact hcall.add (Or.inl rfl) (Or.inl (hcells _ hx)) (Or.inl (hcells' _ hy))
    exact hzip.bind fun k hk => Or.inl (hg ▸ hk.1 ▸ .matrix hk.2)
  · exact hcall.addToGrid (ha.neat_of_kind (by simp [kind])) hb
  · exact hcall.addGridTo ha (hb.neat_of_kind (by simp [kind]))
  · rename_i v _
    split
    · exact hb
    · rename_i hv
      have ha : Neat s (.const v) := by
        refine ha.neat ?_
        rintro ⟨w, hw, hz⟩
        cases hw
        exact hv hz
      cases ha
      split
      · exact Or.inl (.const _)
      · exact hcall.addToSum hs (hb.neat_of_kind (by simp [kind])) (Or.inl (.const v)) fun hne _ => absurd rfl hne
      · exact hcall.addUnlike (.const v) hb
  · rename_i m _
    cases ha.neat_of_kind (by simp [kind])
    have hm : Neat .scalar (Expr.ofMonomial m) := .ofMonomial m
    split
    · split
      · exact Or.inl (.ofMonomial _)
      · exact hcall.addUnlike hm hb
    · exact hcall.addToSum hs (hb.neat_of_kind (by simp [kind])) (Or.inl hm) fun hne _ => absurd rfl hne
    · exact hcall.addUnlike hm hb
  · exact hcall.addToSum hs (ha.neat_of_kind (by simp [kind])) hb (hlossy rfl)
  · have ha := ha.neat_of_kind (by simp [kind])
    refine hcall.testZero hb (Or.inl ha) fun hb => ?_
    simp only [Bool.false_eq_true, if_false]
    split
    · exact hcall.addToSum hs hb (Or.inl ha) fun _ h => absurd h.kind (by simp [kind])
    · exact hcall.addProducts hs ha hb
    · exact (pair_neat ha hb).lift

omit hs in
theorem cancels (x t : Expr α) : Ends (· = .outOfSteps) (fun _ => True) (call.cancels x t) := by
  unfold Calls.cancels
  split
  · trivial
  · exact (hcall.isZero _).imp fun _ _ => trivial
  · rfl
  · trivial

omit hs in
theorem cancelFirst? (t : Expr α) (ts : List (Expr α)) : Ends (· = .outOfSteps) (fun _ => True) (call.cancelFirst? t ts) := by
  induction ts with
  | nil => trivial
  | cons x xs ih =>
    unfold Calls.cancelFirst?
    refine (hcall.cancels x t).bind fun z _ => ?_
    cases z with
    | true => trivial
    | false => exact ih.bind fun _ _ => trivial

omit hs in
theorem keep (kept : List (Expr α)) (t : Expr α) : Ends (· = .outOfSteps) (fun _ => True) (call.keep kept t) := by
  unfold Calls.keep
  refine (hcall.cancelFirst? t kept).bind fun o _ => ?_
  cases o with
  | some us => trivial
  | none =>
    refine (hcall.isZero t).bind fun z _ => ?_
    cases z <;> trivial

omit hs in
theorem anyIsZero (fs : List (Expr α)) : Ends (· = .outOfSteps) (fun _ => True) (fs.anyM call.isZero) := by
  induction fs with
  | nil => trivial
  | cons f fs ih =>
    unfold List.anyM
    refine (hcall.isZero f).bind fun z _ => ?_
    cases z with
    | true => trivial
    | false => exact ih

omit hs in
theorem allIsZero (fs : List (Expr α)) : Ends (· = .outOfSteps) (fun _ => True) (fs.allM call.isZero) := by
  induction fs with
  | nil => trivial
  | cons f fs ih =>
    unfold List.allM
    refine (hcall.isZero f).bind fun z _ => ?_
    cases z with
    | true => exact ih
    | false => trivial

omit hs in
theorem isZeroStep (e : Expr α) : Ends (· = .outOfSteps) (fun z => e.NearZero → z = true) (call.isZeroStep e) := by
  unfold Calls.isZeroStep
  split
  · rintro ⟨w, hw, hz⟩
    cases hw
    exact hz
  · intro h
    cases h.kind
  · refine Ends.bind (Ends.foldlM (I := fun _ => True) trivial fun kept _ t _ => hcall.keep kept t) fun kept _ h => ?_
    cases h.kind
  · refine (hcall.anyIsZero _).imp fun _ _ h => ?_
    cases h.kind
  · refine (hcall.allIsZero _).imp fun _ _ h => ?_
    cases h.kind

theorem scaleStep {v : α} {e : Expr α} (he : Neat s e) : Ends (Stopped (Lost lossy s)) (NeatOrZero s) (call.scaleStep v e) := by
  unfold Calls.scaleStep
  split
  · rename_i g
    obtain ⟨rfl, hcells⟩ := he.of_matrix
    exact mapCells fun c hc => hcall.scale (Or.inl rfl) (hcells c hc)
  · split
    · exact NeatOrZero.zero hs
    · split
      · exact Or.inl he
      · split
        · cases he
          exact Or.inl (.const _)
        · split
          · exact Or.inl he.neg
          · split
            · cases he
              exact Or.inl (.ofMonomial _)
            · exact (Ends.mapM fun t ht => hcall.scale hs (he.of_sum t ht)).bind fun us hus => hcall.sumOf hs hus
            · exact NeatOrZero.mulConstant hs he
            · exact Or.inl he

end Reliable

end Calls

end Expr

end SymbolicAlgebra
