/-
  SymbolicAlgebra.Proofs.Refusals.Multiplication — why values that have shapes are not always multiplied.

  A multiplication is refused where the columns of the left value are not as many as the rows of the
  right one and there are grids in both (`Mismatched`). This goes also for a product or a grid that comes
  to a single number where it is multiplied factor by factor, though a single number can be multiplied by
  any shape. The products of the terms of sums are added, so a zero that has lost its shape can be refused
  as well (`Refused`), if the multiplication leads to the addition of one.

  What one multiplication comes to is shown for any operations that its parts are handed to, as long as
  these are answered so or not at all (`Operations.Reliable`). The library's own calls are answered so by
  induction on the calls that they make (`answered`): all other calls can go without an answer meanwhile
  (`Operations.only`). Single numbers are always added and multiplied (`add_single`, `mul_single`).
-/

import SymbolicAlgebra.Proofs.Refusals.Addition
import SymbolicAlgebra.Proofs.Refusals.Zeros
import SymbolicAlgebra.Proofs.Shapes.Programs

namespace SymbolicAlgebra.Expr

variable {α : Type}

/-! ## Refusals -/

/-- The columns of the left value are not as many as the rows of the right one, and there are grids in
    both. -/
def Mismatched (s t : Shape) (a b : Expr α) (x : ArithError) : Prop :=
  s.cols ≠ t.rows ∧ ¬ Gridless a ∧ ¬ Gridless b ∧ ∃ r, x = .dimensionMismatch .mul s r ∧ r.rows = t.rows

/-- The multiplication of values of these shapes is refused: they do not meet as matrices, or a zero among
    the terms of the product has lost its shape. -/
def Refused (lossy : Prop) (s t : Shape) (a b : Expr α) (x : ArithError) : Prop :=
  (∃ u, s.times? t = some u ∧ Lost lossy u x) ∨ Mismatched s t a b x

section
variable {lossy : Prop} {s t : Shape} {a b a' b' : Expr α} {x : ArithError}

theorem not_refused_scalar : ¬ Refused lossy .scalar .scalar a b x := by
  rintro (⟨u, hu, h⟩ | ⟨hne, -⟩)
  · rw [Shape.times?_scalar_left] at hu
    cases hu
    exact not_lost_scalar h
  · exact hne rfl

theorem Refused.imp {lossy' : Prop} (hl : lossy → lossy') (h : Refused lossy s t a b x) : Refused lossy' s t a b x :=
  h.imp_left fun ⟨u, hu, hx⟩ => ⟨u, hu, hx.imp hl⟩

/-- What is refused of parts is refused of the whole, where there are grids if they are in the parts. -/
theorem Refused.of_parts (ha : Gridless a' → Gridless a) (hb : Gridless b' → Gridless b) (h : Refused lossy s t a b x) :
    Refused lossy s t a' b' x :=
  h.imp_right fun ⟨hne, hga, hgb, hx⟩ => ⟨hne, mt ha hga, mt hb hgb, hx⟩

theorem eq_matrix_of_kind {e : Expr α} (h : e.kind = .matrix) : ∃ g, e = .matrix g := by
  cases e with
  | matrix g => exact ⟨g, rfl⟩
  | _ => cases h

end

variable [Scalar α]

/-- The value has the shape of a product of values of these shapes, or is a number as good as zero. -/
def IsTimes (s t : Shape) (c : Expr α) : Prop := ∃ u, s.times? t = some u ∧ NeatOrZero u c

theorem IsTimes.scalar {c : Expr α} (h : IsTimes .scalar .scalar c) : Neat .scalar c := by
  obtain ⟨u, hu, h⟩ := h
  rw [Shape.times?_scalar_left] at hu
  cases hu
  exact h.neat_scalar

/-- There is a zero of the shape of every product of values of these shapes. -/
def HasZeros (α : Type) [Scalar α] (s t : Shape) : Prop :=
  (s = .scalar ∧ t = .scalar) ∨ Scalar.nearZero (0 : α) = true

theorem HasZeros.times {s t u : Shape} (hz : HasZeros α s t) (hu : s.times? t = some u) : HasZero α u := by
  rcases hz with ⟨rfl, rfl⟩ | hz
  · cases hu
    exact Or.inl rfl
  · exact Or.inr hz

section
variable {s t : Shape} {a b : Expr α}

omit [Scalar α] in
/-- The factors of two values link, if there are no grids in one of them. -/
theorem factorsShape_gridless (ha : Neat s a) (hb : Neat t b) (h : Gridless a ∨ Gridless b) :
    ∃ u, s.times? t = some u ∧ factorsShape none (a.factors ++ b.factors) = .ok u := by
  rcases h with h | h
  · obtain rfl := h.eq_scalar ha.shape
    exact ⟨t, Shape.times?_scalar_left t, (factorsShape_append_of_scalar h.factors_scalar).trans hb.factors.1⟩
  · obtain rfl := h.eq_scalar hb.shape
    refine ⟨s, Shape.times?_scalar_right s, ?_⟩
    rcases factorsShape_after b.factors ha.factors.1 with ⟨rfl, hlink⟩ | hlink
    · exact hlink.trans hb.factors.1
    · exact hlink.trans (factorsShape_scalar h.factors_scalar)

theorem chain_neat (ha : Neat s a) (hb : Neat t b) : Ends (Mismatched s t a b) (IsTimes s t) (chain a b) := by
  obtain ⟨hs, hfs⟩ := ha.factors
  obtain ⟨ht, hgs⟩ := hb.factors
  have hf : ∀ f ∈ a.factors ++ b.factors, ∃ x, Neat x f := List.forall_mem_append.mpr ⟨hfs, hgs⟩
  have linked : (∃ u, s.times? t = some u ∧ factorsShape none (a.factors ++ b.factors) = .ok u) ∨
      ∃ x, factorsShape none (a.factors ++ b.factors) = .error x ∧ Mismatched s t a b x := by
    by_cases h : Gridless a ∨ Gridless b
    · exact Or.inl (factorsShape_gridless ha hb h)
    · obtain ⟨hga, hgb⟩ := not_or.mp h
      rcases factorsShape_after b.factors hs with ⟨rfl, h⟩ | h
      · exact Or.inl ⟨t, Shape.times?_scalar_left t, h.trans ht⟩
      · rw [h]
        exact (factorsShape_behind ht).imp_right fun ⟨hne, r, hr, hrows⟩ => ⟨_, hr, hne, hga, hgb, r, rfl, hrows⟩
  unfold chain checkedProduct
  rcases linked with ⟨u, hu, h⟩ | ⟨x, h, hx⟩
  · rw [h]
    exact ⟨u, hu, Or.inl (.of_factors h hf)⟩
  · rw [h]
    exact hx

theorem prependFactor_neat (m : Monomial α) (hb : Neat t b) (ht : HasZero α t) :
    Succeeds (NeatOrZero t) (prependFactor (ofMonomial m) b.factors) := by
  obtain ⟨hshape, hf⟩ := hb.factors
  unfold prependFactor
  split
  · exact NeatOrZero.mulConstant ht (.of_factors hshape hf)
  · have hproduct : Neat t (.product (ofMonomial m :: b.factors)) := by
      refine .of_factors ?_ (List.forall_mem_cons.mpr ⟨⟨_, .ofMonomial m⟩, hf⟩)
      rw [factorsShape_skip (shape_ofMonomial m), hshape]
    rw [checkedProduct_eq hproduct]
    exact Or.inl hproduct

end

namespace Operations

/-! ## Grids -/

section
variable {allowed : ArithError → Prop} {P : Expr α → Prop} {ops : Operations α}

/-- Two grids are multiplied as far as their cells are. -/
theorem mulStep_grids {g h : Grid (Expr α)} (zero : P (.const 0))
    (htest : ∀ e, Ends (Stopped allowed) (fun _ => True) (ops.isZero e))
    (hmul : ∀ x ∈ g.cells, ∀ y ∈ h.cells, Ends (Stopped allowed) P (ops.mul x y))
    (hadd : ∀ x y, P x → P y → Ends (Stopped allowed) P (ops.add x y)) (hd : g.cols = h.rows) :
    Ends (Stopped allowed) (fun c => ∃ cells, c = .matrix ⟨g.rows, h.cols, cells⟩ ∧ ∀ x ∈ cells, P x)
      (ops.mulStep (.matrix g) (.matrix h)) := by
  have hstep (s : Expr α) (hs : P s) (x y : Expr α) (hx : x ∈ g.cells) (hy : y ∈ h.cells) :
      Ends (Stopped allowed) P (ops.addCells s (x, y)) := by
    refine (htest x).bind fun z _ => ?_
    cases z with
    | true => exact hs
    | false =>
      refine (htest y).bind fun z _ => ?_
      cases z with
      | true => exact hs
      | false => exact (hmul x hx y hy).bind fun p hp => hadd s p hs hp
  unfold mulStep
  dsimp only
  rw [if_pos hd]
  refine (Ends.mapM fun p _ => Ends.foldlM (I := P) zero fun s hs q hq => ?_).bind fun cells hcells => ⟨cells, rfl, hcells⟩
  obtain ⟨hx, hy⟩ := List.of_mem_zip hq
  exact hstep s hs q.1 q.2 (Grid.mem_cells_of_mem_row hx) (Grid.mem_cells_of_mem_transpose (Grid.mem_cells_of_mem_row hy))

end

/-! ## One multiplication -/

/-- The operations are refused on values that have shapes for nothing but these, a lost zero and matrices
    that do not meet. -/
structure Reliable (lossy : Prop) (ops : Operations α) : Prop extends ops.toCalls.Reliable lossy where
  mul {s t : Shape} {a b : Expr α} : HasZeros α s t → Neat s a → Neat t b →
    Ends (Stopped (Refused lossy s t a b)) (IsTimes s t) (ops.mul a b)

namespace Reliable

variable {lossy : Prop} {ops : Operations α} (hops : ops.Reliable lossy)
include hops

/-- Single numbers are multiplied. -/
theorem mulScalars {allowed : ArithError → Prop} {a b : Expr α} (ha : Neat .scalar a) (hb : Neat .scalar b) :
    Ends (Stopped allowed) (Neat .scalar) (ops.mul a b) :=
  ((hops.mul (Or.inl ⟨rfl, rfl⟩) ha hb).allow (Stopped.imp fun _ h => (not_refused_scalar h).elim)).imp
    fun _ h => h.scalar

section
variable {s t : Shape} {a b : Expr α}

theorem mulGrids {g h : Grid (Expr α)} (hg : Neat s (.matrix g)) (hh : Neat t (.matrix h)) :
    Ends (Stopped (Refused lossy s t (.matrix g) (.matrix h))) (IsTimes s t) (ops.mulStep (.matrix g) (.matrix h)) := by
  obtain ⟨rfl, hgs⟩ := hg.of_matrix
  obtain ⟨rfl, hhs⟩ := hh.of_matrix
  by_cases hd : g.cols = h.rows
  · have htest (e : Expr α) :
        Ends (Stopped (Refused lossy g.shape h.shape (.matrix g) (.matrix h))) (fun _ => True) (ops.isZero e) :=
      ((hops.isZero e).allow fun x hx => by subst hx; trivial).imp fun _ _ => trivial
    refine (mulStep_grids (P := Neat .scalar) (.const 0) htest (fun x hx y hy => hops.mulScalars (hgs x hx) (hhs y hy))
      (fun x y hx hy => ?_) hd).imp ?_
    · refine ((hops.add (Or.inl rfl) (Or.inl hx) (Or.inl hy)).allow (Stopped.imp fun _ h => (not_lost_scalar h).elim)).imp ?_
      exact fun _ h => h.neat_scalar
    · rintro c ⟨cells, rfl, hcells⟩
      exact ⟨_, Shape.times?_of_cols_eq hd, Or.inl (.cells hcells)⟩
  · have hgrids (k : Grid (Expr α)) : ¬ Gridless (.matrix k) := fun h => (Everywhere.matrix_iff.mp h).1
    unfold mulStep
    dsimp only
    rw [if_neg hd]
    exact Or.inr ⟨hd, hgrids g, hgrids h, h.shape, rfl, rfl⟩

/-- A single number goes into the cells of a grid, anything else stands beside it. -/
theorem gridTimes {g : Grid (Expr α)} (hg : Neat s (.matrix g)) (hb : Neat t b) :
    Ends (Stopped (Refused lossy s t (.matrix g) b)) (IsTimes s t) (ops.gridTimes g b) := by
  obtain ⟨rfl, hcells⟩ := hg.of_matrix
  unfold Operations.gridTimes
  rw [hb.shape]
  by_cases ht : t = .scalar
  · subst ht
    exact (Ends.mapM fun x hx => hops.mulScalars (hcells x hx) hb).bind fun cells hcells =>
      ⟨_, Shape.times?_scalar_right _, Or.inl (.cells hcells)⟩
  · show Ends _ _ (if t.isScalar = true then _ else _)
    rw [if_neg (mt Shape.isScalar_iff.mp ht)]
    exact ((chain_neat hg hb).allow fun _ => Or.inr).lift

theorem timesGrid {g : Grid (Expr α)} (ha : Neat s a) (hg : Neat t (.matrix g)) :
    Ends (Stopped (Refused lossy s t a (.matrix g))) (IsTimes s t) (ops.timesGrid a g) := by
  obtain ⟨rfl, hcells⟩ := hg.of_matrix
  unfold Operations.timesGrid
  rw [ha.shape]
  by_cases hs : s = .scalar
  · subst hs
    exact (Ends.mapM fun y hy => hops.mulScalars ha (hcells y hy)).bind fun cells hcells =>
      ⟨_, Shape.times?_scalar_left _, Or.inl (.cells hcells)⟩
  · show Ends _ _ (if s.isScalar = true then _ else _)
    rw [if_neg (mt Shape.isScalar_iff.mp hs)]
    exact ((chain_neat ha hg).allow fun _ => Or.inr).lift

/-- The products of the terms of a sum with a value are added up. Without terms there is only one shape. -/
theorem sumOfProducts (hz : HasZeros α s t) {ts : List (Expr α)} {f : Expr α → Except Stop (Expr α)}
    (hne : ts = [] → ∃ u, s.times? t = some u)
    (h : ∀ x ∈ ts, Ends (Stopped (Refused lossy s t a b)) (IsTimes s t) (f x)) :
    Ends (Stopped (Refused lossy s t a b)) (IsTimes s t) (do ops.sumOf (← ts.mapM f)) := by
  have hproducts : Ends (Stopped (Refused lossy s t a b)) (fun us => ∃ u, s.times? t = some u ∧ ∀ x ∈ us, NeatOrZero u x)
      (ts.mapM f) := by
    cases hu : s.times? t with
    | some u =>
      refine (Ends.mapM (Q := NeatOrZero u) fun x hx => (h x hx).imp ?_).imp fun us hus => ⟨u, rfl, hus⟩
      rintro c ⟨u', hu', hc⟩
      rw [hu] at hu'
      cases hu'
      exact hc
    | none =>
      cases ts with
      | nil =>
        obtain ⟨u, hu'⟩ := hne rfl
        rw [hu] at hu'
        cases hu'
      | cons x xs =>
        rw [List.mapM_cons]
        refine (h x List.mem_cons_self).bind fun c hc => ?_
        obtain ⟨u, hu', -⟩ := hc
        rw [hu] at hu'
        cases hu'
  refine hproducts.bind ?_
  rintro us ⟨u, hu, hus⟩
  exact ((hops.sumOf (hz.times hu) hus).allow (Stopped.imp fun x hx => Or.inl ⟨u, hu, hx⟩)).imp fun c hc => ⟨u, hu, hc⟩

omit hops [Scalar α] in
/-- A sum without terms is a single number. -/
theorem times?_of_no_terms {ts : List (Expr α)} (hts : Neat s (.sum ts)) (hnil : ts = []) : ∃ u, s.times? t = some u := by
  rw [(shape_sum_eq_ok.mp hts.shape).1 hnil]
  exact ⟨t, Shape.times?_scalar_left t⟩

theorem foldCross {ts : List (Expr α)} (hs : HasZero α s) (ha : NeatOrZero s a) (hts : ∀ x ∈ ts, Neat s x) :
    Ends (Stopped (Lost lossy s)) (fun us => ∀ u ∈ us, Neat s u) (ops.foldCross a ts) := by
  induction ts with
  | nil => exact hops.testZero ha (List.forall_mem_nil _) fun ha => List.forall_mem_singleton.mpr ha
  | cons x xs ih =>
    obtain ⟨hx, hxs⟩ := List.forall_mem_cons.mp hts
    refine (hops.add hs (Or.inl hx) ha).bind fun c hc => ?_
    refine hops.testZero hc hxs fun hc => ?_
    have hcons : ∀ u ∈ c :: xs, Neat s u := List.forall_mem_cons.mpr ⟨hc, hxs⟩
    cases c with
    | sum _ => exact (ih hxs).bind fun us hus => List.forall_mem_cons.mpr ⟨hx, hus⟩
    | _ => exact hcons

/-- Every term of the one sum is multiplied by every term of the other. -/
theorem mulSums (hz : HasZeros α s t) {ts us : List (Expr α)} (hts : Neat s (.sum ts)) (hus : Neat t (.sum us)) :
    Ends (Stopped (Refused lossy s t (.sum ts) (.sum us))) (IsTimes s t) (ops.mulStep (.sum ts) (.sum us)) := by
  have hmul (x : Expr α) (hx : x ∈ ts) (y : Expr α) (hy : y ∈ us) :
      Ends (Stopped (Refused lossy s t (.sum ts) (.sum us))) (IsTimes s t) (ops.mul x y) := by
    refine (hops.mul hz (hts.of_sum x hx) (hus.of_sum y hy)).allow (Stopped.imp fun _ => Refused.of_parts ?_ ?_)
    · exact fun h => Everywhere.sum_iff.mp h x hx
    · exact fun h => Everywhere.sum_iff.mp h y hy
  unfold mulStep
  cases hu : s.times? t with
  | some u =>
    have hs : HasZero α u := hz.times hu
    refine (Ends.foldlM (I := fun done => ∀ x ∈ done, Neat u x) (List.forall_mem_nil _) fun done hdone x hx =>
      Ends.foldlM hdone fun done hdone y hy => (hmul x hx y hy).bind ?_).bind fun done hdone => ?_
    · rintro c ⟨u', hu', hc⟩
      rw [hu] at hu'
      cases hu'
      exact (hops.foldCross hs hc hdone).allow (Stopped.imp fun e he => Or.inl ⟨u, hu, he⟩)
    · exact ⟨u, hu, NeatOrZero.ofTerms hs hdone⟩
  | none =>
    -- Both sums have terms then, and the first two cannot be multiplied.
    have hnone {x y : Expr α} (hx : x ∈ ts) (hy : y ∈ us) :
        Ends (Stopped (Refused lossy s t (.sum ts) (.sum us))) (fun _ => False) (ops.mul x y) := by
      refine (hmul x hx y hy).imp ?_
      rintro c ⟨u, hu', -⟩
      rw [hu] at hu'
      cases hu'
    cases ts with
    | nil =>
      obtain ⟨u, hu'⟩ := times?_of_no_terms (t := t) hts rfl
      rw [hu] at hu'
      cases hu'
    | cons x xs =>
      cases us with
      | nil =>
        rw [(shape_sum_eq_ok.mp hus.shape).1 rfl, Shape.times?_scalar_right] at hu
        cases hu
      | cons y ys =>
        dsimp only
        rw [List.foldlM_cons, List.foldlM_cons]
        refine Ends.bind (Q := fun _ => False) (Ends.bind (Q := fun _ => False) (Ends.bind (Q := fun _ => False)
          ((hnone List.mem_cons_self List.mem_cons_self).bind ?_) ?_) ?_) ?_
        all_goals exact fun _ h => h.elim

omit hops in
/-- A value times a single number in front has the shape of the value. -/
theorem numberTimes {x : Except Stop (Expr α)} (h : Ends (Stopped (Lost lossy t)) (NeatOrZero t) x) :
    Ends (Stopped (Refused lossy .scalar t a b)) (IsTimes .scalar t) x :=
  (h.allow (Stopped.imp fun _ h => Or.inl ⟨t, Shape.times?_scalar_left t, h⟩)).imp
    fun _ h => ⟨t, Shape.times?_scalar_left t, h⟩

theorem scaleTimes (hz : HasZeros α .scalar t) (v : α) (hb : Neat t b) :
    Ends (Stopped (Refused lossy .scalar t (.const v) b)) (IsTimes .scalar t) (ops.scale v b) :=
  numberTimes (hops.scale (hz.times (Shape.times?_scalar_left t)) hb)

omit hops in
/-- A monomial stands in front of the factors of a product. -/
theorem monomialTimes (hz : HasZeros α .scalar t) (m : Monomial α) (hb : Neat t b) :
    Ends (Stopped (Refused lossy .scalar t (.var m) b)) (IsTimes .scalar t) (liftM (prependFactor (ofMonomial m) b.factors)) :=
  numberTimes (prependFactor_neat m hb (hz.times (Shape.times?_scalar_left t))).lift

theorem monomialTimesTerms (hz : HasZeros α .scalar t) (m : Monomial α) {us : List (Expr α)} (hus : Neat t (.sum us)) :
    Ends (Stopped (Refused lossy .scalar t (.var m) (.sum us))) (IsTimes .scalar t)
      (do ops.sumOf (← us.mapM fun u => ops.mul (ofMonomial m) u)) := by
  refine hops.sumOfProducts hz (fun _ => ⟨t, Shape.times?_scalar_left t⟩) fun u hu => ?_
  refine (hops.mul hz (.ofMonomial m) (hus.of_sum u hu)).allow (Stopped.imp fun _ => Refused.of_parts ?_ ?_)
  · exact fun _ => Everywhere.ofMonomial fun _ _ => trivial
  · exact fun h => Everywhere.sum_iff.mp h u hu

theorem termsTimes (hz : HasZeros α s t) {ts : List (Expr α)} (hts : Neat s (.sum ts)) (hb : Neat t b) :
    Ends (Stopped (Refused lossy s t (.sum ts) b)) (IsTimes s t) (do ops.sumOf (← ts.mapM fun x => ops.mul x b)) := by
  refine hops.sumOfProducts hz (times?_of_no_terms hts) fun x hx => ?_
  exact (hops.mul hz (hts.of_sum x hx) hb).allow
    (Stopped.imp fun _ => Refused.of_parts (fun h => Everywhere.sum_iff.mp h x hx) id)

theorem timesTerms (hz : HasZeros α s t) (ha : Neat s a) {us : List (Expr α)} (hus : Neat t (.sum us)) :
    Ends (Stopped (Refused lossy s t a (.sum us))) (IsTimes s t) (do ops.sumOf (← us.mapM fun u => ops.mul a u)) := by
  refine hops.sumOfProducts hz (fun hnil => ?_) fun u hu => ?_
  · rw [(shape_sum_eq_ok.mp hus.shape).1 hnil]
    exact ⟨s, Shape.times?_scalar_right s⟩
  · exact (hops.mul hz ha (hus.of_sum u hu)).allow
      (Stopped.imp fun _ => Refused.of_parts id fun h => Everywhere.sum_iff.mp h u hu)

/-- Values that have shapes are multiplied, unless the columns of the left one do not meet the rows of the
    right one, or a zero among the terms of the product has lost its shape. -/
theorem mulStep (hz : HasZeros α s t) (ha : Neat s a) (hb : Neat t b) :
    Ends (Stopped (Refused lossy s t a b)) (IsTimes s t) (ops.mulStep a b) := by
  cases a with
  | matrix g =>
    cases b with
    | matrix h => exact hops.mulGrids ha hb
    | _ => exact hops.gridTimes ha hb
  | const v =>
    cases b with
    | matrix h => exact hops.timesGrid ha hb
    | _ =>
      cases ha
      exact hops.scaleTimes hz v hb
  | var m =>
    cases b with
    | matrix h => exact hops.timesGrid ha hb
    | const w =>
      cases ha
      cases hb
      exact numberTimes (Or.inl (.ofMonomial _))
    | var k =>
      cases ha
      cases hb
      exact numberTimes (Or.inl (.mulMonomials m k))
    | sum us =>
      cases ha
      exact hops.monomialTimesTerms hz m hb
    | product gs =>
      cases ha
      exact monomialTimes hz m hb
  | sum ts =>
    cases b with
    | matrix h => exact hops.timesGrid ha hb
    | sum us => exact hops.mulSums hz ha hb
    | _ => exact hops.termsTimes hz ha hb
  | product fs =>
    cases b with
    | matrix h => exact hops.timesGrid ha hb
    | const w =>
      cases hb
      have hs := Shape.times?_scalar_right s
      exact ⟨s, hs, NeatOrZero.mulConstant (hz.times hs) ha⟩
    | sum us => exact hops.timesTerms hz ha hb
    | _ => exact ((chain_neat ha hb).allow fun _ => Or.inr).lift

end

end Reliable

end Operations

/-! ## The calls of the library -/

namespace Call

/-- The call has an answer as it should be, or is refused for nothing but a lost zero and matrices that do
    not meet; or it has no answer. -/
def Answered (lossy : Prop) : (c : Call α) → Except Stop c.Answer → Prop
  | .add a b, x => ∀ s, HasZero α s → NeatOrZero s a → NeatOrZero s b → Ends (Stopped (Lost lossy s)) (NeatOrZero s) x
  | .isZero e, x => Ends (· = .outOfSteps) (fun z => e.NearZero → z = true) x
  | .scale _ e, x => ∀ s, HasZero α s → Neat s e → Ends (Stopped (Lost lossy s)) (NeatOrZero s) x
  | .mul a b, x => ∀ s t, HasZeros α s t → Neat s a → Neat t b → Ends (Stopped (Refused lossy s t a b)) (IsTimes s t) x

variable {lossy : Prop} {c : Call α}

theorem Answered.imp {lossy' : Prop} (hl : lossy → lossy') {x : Except Stop c.Answer} (h : c.Answered lossy x) :
    c.Answered lossy' x := by
  cases c with
  | add a b => exact fun s hs ha hb => (h s hs ha hb).allow (Stopped.imp fun _ hx => hx.imp hl)
  | isZero e => exact h
  | scale v e => exact fun s hs he => (h s hs he).allow (Stopped.imp fun _ hx => hx.imp hl)
  | mul a b => exact fun s t hz ha hb => (h s t hz ha hb).allow (Stopped.imp fun _ hx => hx.imp hl)

theorem answered_outOfSteps : c.Answered lossy (.error .outOfSteps) := by
  cases c with
  | add a b => exact fun _ _ _ _ => trivial
  | isZero e => rfl
  | scale v e => exact fun _ _ _ => trivial
  | mul a b => exact fun _ _ _ _ _ => trivial

/-- A sum of matrices that a zero is added to. -/
theorem losesZero_of_sum {s : Shape} {a b : Expr α} (ha : NeatOrZero s a) (hk : a.kind = .sum) (hs : s ≠ .scalar)
    (hb : b.NearZero) : (Call.add a b).losesZero = true := by
  cases a with
  | sum ts =>
    obtain ⟨v, rfl, hv⟩ := hb
    have hshape := (ha.neat_of_kind (by simp [kind])).shape
    simp [losesZero, hv, hshape, hs]
  | _ => cases hk

end Call

namespace Operations

section
variable {lossy : Prop} {ops : Operations α}

theorem reliable_of_answered (h : ∀ c : Call α, c.Answered lossy (ops.answer c)) : ops.Reliable lossy where
  add hs ha hb := h (.add _ _) _ hs ha hb
  isZero e := h (.isZero e)
  scale hs he := h (.scale _ _) _ hs he
  mul hz ha hb := h (.mul _ _) _ _ hz ha hb

/-- One step of operations that are answered so is answered so itself. -/
theorem Reliable.next (hops : ops.Reliable lossy) {c : Call α} (hc : c.losesZero = true → lossy) :
    c.Answered lossy (ops.next.answer c) := by
  cases c with
  | add a b =>
    exact fun s hs ha hb => hops.addStep hs ha hb fun hk hne hzero => hc (Call.losesZero_of_sum ha hk hne hzero)
  | isZero e => exact hops.isZeroStep e
  | scale v e => exact fun s hs he => hops.scaleStep hs he
  | mul a b => exact fun s t hz ha hb => hops.mulStep hz ha hb

open Classical in
/-- The operations, with answers to these calls only. -/
noncomputable def only (P : Call α → Prop) (ops : Operations α) : Operations α where
  add a b := if P (.add a b) then ops.add a b else .error .outOfSteps
  isZero e := if P (.isZero e) then ops.isZero e else .error .outOfSteps
  scale v e := if P (.scale v e) then ops.scale v e else .error .outOfSteps
  mul a b := if P (.mul a b) then ops.mul a b else .error .outOfSteps

omit [Scalar α] in
theorem answer_only {P : Call α → Prop} {c : Call α} (h : P c) : (ops.only P).answer c = ops.answer c := by
  cases c <;> exact if_pos h

omit [Scalar α] in
theorem answer_only_of_not {P : Call α → Prop} {c : Call α} (h : ¬ P c) : (ops.only P).answer c = .error .outOfSteps := by
  cases c <;> exact if_neg h

end

/-- The library answers every call so, with no lost zero unless the call leads to the addition of a zero to
    a sum of matrices. -/
theorem answered (c : Call α) : c.Answered c.AddsZero (unbounded.answer c) := by
  induction c using WellFounded.induction (Call.makes_wellFounded (α := α)) with
  | _ c ih =>
    obtain ⟨cs, hcs, -, hsame⟩ := c.exists_calls
    have hops : (unbounded.only c.Makes).Reliable c.AddsZero := by
      refine reliable_of_answered fun d => ?_
      by_cases hd : c.Makes d
      · rw [answer_only hd]
        exact (ih d hd).imp (.of_makes hd)
      · rw [answer_only_of_not hd]
        exact Call.answered_outOfSteps
    have hnext := hops.next Call.addsZero_of_losesZero
    rwa [hsame _ fun d hd => answer_only ((hcs d).mpr hd)] at hnext

end Operations

open Operations

/-- Values that have shapes are multiplied, unless the columns of the left one do not meet the rows of the
    right one, or a zero is added to a sum of matrices on the way. -/
theorem mul_neat {s t : Shape} {a b : Expr α} (hz : HasZeros α s t) (ha : Neat s a) (hb : Neat t b) :
    Ends (Refused (Call.mul a b).AddsZero s t a b) (IsTimes s t) (a.mul b) :=
  .of_lift (answered (.mul a b) s t hz ha hb)

section
variable {a b : Expr α}

/-- Single numbers are added. -/
theorem add_single (ha : Neat .scalar a) (hb : Neat .scalar b) : Succeeds (Neat .scalar) (a.add b) := by
  have hadd : Ends (Lost (Call.add a b).AddsZero .scalar) (NeatOrZero .scalar) (a.add b) :=
    .of_lift (answered (.add a b) .scalar (Or.inl rfl) (Or.inl ha) (Or.inl hb))
  exact (hadd.allow fun _ => not_lost_scalar).imp fun _ h => h.neat_scalar

/-- Single numbers are multiplied. -/
theorem mul_single (ha : Neat .scalar a) (hb : Neat .scalar b) : Succeeds (Neat .scalar) (a.mul b) :=
  ((mul_neat (Or.inl ⟨rfl, rfl⟩) ha hb).allow fun _ => not_refused_scalar).imp fun _ h => h.scalar

end

/-- Grids are multiplied where products of their cells are defined. -/
theorem mul_grids_succeeds {P : Expr α → Prop} {g h : Grid (Expr α)} (zero : P (.const 0))
    (hmul : ∀ x ∈ g.cells, ∀ y ∈ h.cells, Succeeds P (mul x y)) (hadd : ∀ x y, P x → P y → Succeeds P (add x y))
    (hd : g.cols = h.rows) :
    Succeeds (fun c => ∃ cells, c = .matrix ⟨g.rows, h.cols, cells⟩ ∧ ∀ x ∈ cells, P x) (mul (.matrix g) (.matrix h)) := by
  have htest (e : Expr α) : Ends (Stopped fun _ => False) (fun _ => True) (unbounded.isZero e) := trivial
  have hstep := mulStep_grids zero htest (fun x hx y hy => (hmul x hx y hy).lift) (fun x y hx hy => (hadd x y hx hy).lift) hd
  rw [← mul_eq_step] at hstep
  exact .of_lift hstep

theorem mul_grids_mismatch {g h : Grid (Expr α)} (hd : g.cols ≠ h.rows) :
    mul (.matrix g) (.matrix h) = .error (.dimensionMismatch .mul g.shape h.shape) := by
  unfold mul
  rw [if_neg hd]
  rfl

end SymbolicAlgebra.Expr
