/-
  SymbolicAlgebra.Proofs.Refusals.Tidying — where tidying keeps the shape of a tree, and where it is
  refused.

  Tidying keeps every node in shape, and the shape of the tree but for zeros (`shape_normalize`). It
  multiplies the factors of nested products as those of the outer one, and grids of one cell as
  matrices, where the shape of a product has them as single numbers. So it can be refused, but only with
  a single number among the operands (`normalize_blamed`): any two factors that meet can be multiplied
  as matrices, or could be if one of them were a number (`AllMeet`).

  Where the factors of every product link as matrices, grids of one cell too, tidying is not refused
  (`normalize_tidiable`). Sums of matrices may be among the factors. What nested products come to has to link
  as well, as its factors are multiplied again; it does if all products within them link
  (`Tidiable.of_linking`), those in the terms of sums too.

  A zero can be in the way of all this: it is a single number, and a sum of matrices refuses it
  (`MeetsZero`). Together this is `normalize_shapes`; tidying does not always succeed and keep the shape
  (`normalize_shape_differs`).
-/

import SymbolicAlgebra.Proofs.Refusals.Linking

namespace SymbolicAlgebra.Expr

variable {α : Type}

/-! ## Where a product is refused -/

/-- Two shapes can be multiplied as matrices, or one of them could be a single number: the left one has
    one column, or the right one has one row. -/
def Meets (s t : Shape) : Prop := s.cols = t.rows ∨ s.cols = 1 ∨ t.rows = 1

/-- The multiplication of two matrices is refused, one of which is a single number as far as it meets the
    other: it has one column or one row, which the other meets with several. -/
def Blamed (x : ArithError) : Prop :=
  ∃ l r, x = .dimensionMismatch .mul l r ∧ l.cols ≠ r.rows ∧ (l.cols = 1 ∨ r.rows = 1)

theorem Meets.of_times? {s t u : Shape} (h : s.times? t = some u) : Meets s t := by
  rcases Shape.times?_eq_some h with ⟨rfl, -⟩ | ⟨rfl, -⟩ | ⟨hc, -⟩
  · exact Or.inr (Or.inl rfl)
  · exact Or.inr (Or.inr rfl)
  · exact Or.inl hc

theorem Refused.blamed {lossy : Prop} {s t : Shape} {a b : Expr α} {x : ArithError} (h : Refused lossy s t a b x)
    (hlossy : ¬ lossy) (hm : Meets s t) : Blamed x := by
  rcases h with ⟨u, -, hlost, -⟩ | ⟨hne, -, -, r, hx, hr⟩
  · exact absurd hlost hlossy
  · exact ⟨s, r, hx, hr ▸ hne, hr ▸ hm.resolve_left hne⟩

/-- What meets the columns of the right factor meets those of the product. -/
theorem meets_of_product {w q v y : Shape} (hv : w.times? q = some v) (hc : q.cols = y.rows) : Meets v y := by
  rcases Shape.times?_eq_some hv with ⟨-, rfl⟩ | ⟨rfl, -⟩ | ⟨-, rfl⟩
  · exact Or.inl hc
  · exact Or.inr (Or.inr hc.symm)
  · exact Or.inl hc

/-- One after the other the factors meet what the ones before come to, as long as these can be
    multiplied. -/
def AllMeet : Shape → List (Expr α) → Prop
  | _, [] => True
  | s, f :: fs => ∀ x, f.shape = .ok x → Meets s x ∧ ∀ u, s.times? x = some u → AllMeet u fs

/-- A value before factors that begin with those of a product. `w` is what comes before the product,
    `v` what comes before the factors `fs` that are left of it, and `chain` the shape of the factors of
    the product before these. -/
theorem allMeet_product {w v x u : Shape} {chain : Option Shape} {fs rest : List (Expr α)}
    (hv : w.times? (chain.getD .scalar) = some v) (hx : factorsShape chain fs = .ok x) (hu : w.times? x = some u)
    (hrest : AllMeet u rest) : AllMeet v (fs ++ rest) := by
  induction fs generalizing chain v with
  | nil =>
    cases hx
    rw [hv] at hu
    cases hu
    exact hrest
  | cons f fs ih =>
    intro y hy
    obtain ⟨y', hy', hstep⟩ := factorsShape_cons hx
    rw [hy] at hy'
    cases hy'
    rcases hstep with ⟨rfl, hfs⟩ | ⟨hne, rfl, hfs⟩ | ⟨hne, q, rfl, hc, hfs⟩
    · refine ⟨Or.inr (Or.inr rfl), fun u' hu' => ?_⟩
      rw [Shape.times?_scalar_right] at hu'
      cases hu'
      exact ih hv hfs
    · -- The factor gives the product its rows.
      rw [Option.getD_none, Shape.times?_scalar_right] at hv
      cases hv
      obtain ⟨c, rfl, -⟩ := factorsShape_rows hfs
      refine ⟨Meets.of_times? (t := ⟨y.rows, c⟩) hu, fun u' hu' => ?_⟩
      have hv : w.times? ((some y).getD .scalar) = some u' := hu'
      exact ih hv hfs
    · refine ⟨meets_of_product hv hc, fun u' hu' => ?_⟩
      have hv : w.times? ((some (Shape.mk q.rows y.cols)).getD .scalar) = some u' :=
        Shape.times?_assoc hv hu' (Shape.times?_of_cols_eq hc)
      exact ih hv hfs

/-- Factors that chain, with those of products in their place, meet one after the other. -/
theorem allMeet_flatMap {s t : Shape} {gs : List (Expr α)} (h : Chained s gs t) : AllMeet s (gs.flatMap factors) := by
  induction h with
  | nil => trivial
  | @cons s x u t g gs hx hu _ ih =>
    rw [List.flatMap_cons]
    exact allMeet_product (Shape.times?_scalar_right s) (by rw [factorsShape_factors, hx]) hu ih

section
variable [Scalar α]

/-- Numbers among the factors do not matter. -/
theorem allMeet_splitFrom {s : Shape} {v : α} {fs : List (Expr α)} (h : AllMeet s fs) : AllMeet s (splitFrom v fs).2 := by
  induction fs generalizing s v with
  | nil => trivial
  | cons f fs ih =>
    cases f with
    | const w =>
      obtain ⟨-, hrest⟩ := h _ rfl
      exact ih (hrest s (Shape.times?_scalar_right s))
    | _ =>
      intro x hx
      obtain ⟨hm, hrest⟩ := h x hx
      exact ⟨hm, fun u hu => ih (hrest u hu)⟩

/-! ## Where a zero comes up -/

/-- Two values that are multiplied when factors are: what comes of the first of them and the next one, and
    the number that is taken out of all of them and what comes of the others. -/
inductive Operands (gs : List (Expr α)) : Expr α → Expr α → Prop
  | next {done rest : List (Expr α)} {p f : Expr α} : Partway gs done p (f :: rest) → Operands gs p f
  | last {done : List (Expr α)} {p : Expr α} : Partway gs done p [] → Operands gs (.const (splitCoefficient gs).1) p

/-- A zero is added to a sum of matrices where the tidied factors of a product are multiplied. -/
def AddsZero (fs : List (Expr α)) : Prop :=
  ∃ gs a b, normalizeFactors fs = .ok gs ∧ Operands gs a b ∧ (Call.mul a b).AddsZero

/-- Somewhere in the tree, cells included, tidying comes past a zero, or adds one to a sum of matrices. -/
inductive MeetsZero : Expr α → Prop
  | passes {e : Expr α} : PassesZero e → MeetsZero e
  | adds {fs : List (Expr α)} : AddsZero fs → MeetsZero (.product fs)
  | factor {fs : List (Expr α)} {f : Expr α} : f ∈ fs → MeetsZero f → MeetsZero (.product fs)
  | cell {g : Grid (Expr α)} {c : Expr α} : c ∈ g.cells → MeetsZero c → MeetsZero (.matrix g)

theorem MeetsZero.kind {e : Expr α} (h : MeetsZero e) : e.kind = .product ∨ e.kind = .matrix := by
  cases h with
  | passes h => exact Or.inl h.kind
  | adds _ => exact Or.inl rfl
  | factor _ _ => exact Or.inl rfl
  | cell _ _ => exact Or.inr rfl

theorem not_meetsZero_grid {g : Grid (Expr α)} (hg : ∀ c ∈ g.cells, c.kind ≠ .product ∧ c.kind ≠ .matrix) :
    ¬ MeetsZero (.matrix g) := by
  intro h
  cases h with
  | passes h => exact absurd h.kind (by simp [Expr.kind])
  | cell hc h => exact h.kind.elim (hg _ hc).1 (hg _ hc).2

/-- Multiplying the factors comes past no zero but single numbers, and adds none to a sum of matrices. -/
structure Clear (gs : List (Expr α)) : Prop where
  passes {done rest : List (Expr α)} {p : Expr α} : Partway gs done p rest → p.NearZero → Chained .scalar done .scalar
  adds {a b : Expr α} : Operands gs a b → ¬ (Call.mul a b).AddsZero

theorem clear_of_not_meetsZero {fs gs : List (Expr α)} (h : ¬ MeetsZero (.product fs)) (hgs : normalizeFactors fs = .ok gs) :
    Clear gs where
  passes hp hz := by
    by_contra hne
    exact h (.passes (.start hgs hp hz hne))
  adds hab hz := h (.adds ⟨gs, _, _, hgs, hab, hz⟩)

/-! ## Refusals -/

variable (zero : Scalar.nearZero (0 : α) = true)
include zero

/-- Multiplying by one value after the other, as long as no zero comes up. -/
theorem foldlM_mul_blamed {gs done rest : List (Expr α)} {p : Expr α} {w : Shape} (hgs : Clear gs)
    (hp : Partway gs done p rest) (hneat : Neat w p) (hdone : Chained .scalar done w)
    (hrest : ∀ f ∈ rest, ∃ x, Neat x f) (hmeet : AllMeet w rest) :
    Ends Blamed (fun c => ∃ u, Neat u c) (rest.foldlM mul p) := by
  induction rest generalizing done p w with
  | nil => exact ⟨w, hneat⟩
  | cons f fs ih =>
    obtain ⟨⟨x, hx⟩, hfs⟩ := List.forall_mem_cons.mp hrest
    obtain ⟨hm, hmeet⟩ := hmeet x hx.shape
    rw [List.foldlM_cons]
    refine (((mul_neat (Or.inr zero) hneat hx).allow fun _ h => h.blamed (hgs.adds (.next hp)) hm).attach).bind ?_
    rintro q ⟨hq, u, hu, hneat⟩
    have hnext := hp.next hq
    have hdone := chained_snoc.mpr ⟨w, x, hdone, hx.shape, hu⟩
    have hneat : Neat u q := by
      rcases hneat with hneat | hz
      · exact hneat
      · cases hdone.unique (hgs.passes hnext hz)
        exact hz.neat
    exact ih hnext hneat hdone hfs (hmeet u hu)

/-- Factors that meet one after the other are multiplied, as long as no zero comes up, or are refused
    with a single number among them. -/
theorem recombine_blamed {gs : List (Expr α)} (hclear : Clear gs) (hgs : ∀ g ∈ gs, ∃ x, Neat x g)
    (hmeet : AllMeet .scalar gs) : Ends Blamed (fun c => ∃ u, Neat u c) (recombine gs) := by
  have hneat : ∀ f ∈ (splitCoefficient gs).2, ∃ x, Neat x f := forall_splitFrom (fun m _ => ⟨_, .var _⟩) hgs
  have hmeet : AllMeet .scalar (splitCoefficient gs).2 := allMeet_splitFrom hmeet
  refine recombine_ends (fun v => ⟨_, .const v⟩) fun first more h0 hr => ?_
  rw [hr] at hneat hmeet
  obtain ⟨⟨x, hfirst⟩, hmore⟩ := List.forall_mem_cons.mp hneat
  have hmeet := (hmeet x hfirst.shape).2 x (Shape.times?_scalar_left x)
  have hp : Partway gs [first] first more := .first h0 hr
  have hdone : Chained .scalar [first] x := .cons hfirst.shape (Shape.times?_scalar_left x) .nil
  refine ((foldlM_mul_blamed zero hclear hp hfirst hdone hmore hmeet).attach).bind ?_
  rintro q ⟨hq, u, hneat⟩
  have hadd := hclear.adds (.last (hp.foldlM hq))
  refine ((mul_neat (Or.inr zero) (.const _) hneat).allow fun _ h => h.blamed hadd (Or.inr (Or.inl rfl))).imp ?_
  rintro c ⟨w, -, hc⟩
  rcases hc with hc | hc
  · exact ⟨w, hc⟩
  · exact ⟨_, hc.neat⟩

/-- What a tidied tree comes to is its shape, unless a zero comes up. -/
theorem neat_normalize {s : Shape} {e c : Expr α} (he : Neat s e) (hz : ¬ MeetsZero e) (hc : normalize e = .ok c)
    (hneat : ∃ u, Neat u c) : Neat s c := by
  obtain ⟨u, hneat⟩ := hneat
  have hshape := (shape_normalize zero hc he.shaped).resolve_right fun h => hz (.passes h)
  rw [hneat.shape, he.shape] at hshape
  cases hshape
  exact hneat

/-- A tree that has a shape, with single numbers in its cells, is tidied to one of its shape, or refused
    with a single number among the operands, unless a zero comes up. -/
theorem normalize_blamed {s : Shape} {e : Expr α} (he : Neat s e) (hz : ¬ MeetsZero e) : Ends Blamed (Neat s) (normalize e) := by
  -- Any shape of the result will do: it is that of the tree, as no zero comes up.
  suffices Ends Blamed (fun c => ∃ u, Neat u c) (normalize e) from
    this.attach.imp fun c hc => neat_normalize zero he hz hc.1 hc.2
  induction e generalizing s with
  | const v =>
    unfold normalize
    exact ⟨_, he⟩
  | var m =>
    unfold normalize
    exact ⟨_, he.collapse⟩
  | sum ts =>
    unfold normalize
    exact ⟨_, he⟩
  | product fs ih =>
    obtain ⟨hs, hf⟩ := he.of_product
    have hfactors : ∀ f ∈ fs, Ends Blamed (fun c => c.shape = f.shape ∧ ∃ x, Neat x c) (normalize f) := by
      intro f hmem
      obtain ⟨x, hx⟩ := hf f hmem
      have hzf : ¬ MeetsZero f := fun h => hz (.factor hmem h)
      refine (ih f hmem hx hzf).attach.imp fun c hc => ?_
      have hneat := neat_normalize zero hx hzf hc.1 hc.2
      exact ⟨by rw [hneat.shape, hx.shape], x, hneat⟩
    unfold normalize
    refine (normalizeFactors_ends hfactors).attach.bind ?_
    rintro _ ⟨hgs, hs', hhs, rfl⟩
    have hshape : factorsShape none hs' = .ok s := by
      rw [← hs]
      exact factorsShape_congr (map_eq_map hhs fun _ _ h => h.1)
    have hneat : ∀ g ∈ hs'.flatMap factors, ∃ x, Neat x g := by
      refine forall_mem_spliced hhs fun f _ c hc => ?_
      obtain ⟨-, x, hx⟩ := hc
      exact hx.factors.2
    exact recombine_blamed zero (clear_of_not_meetsZero hz hgs) hneat (allMeet_flatMap (chained_of_factorsShape hshape))
  | matrix g ih =>
    obtain ⟨r, k, cells⟩ := g
    have hcells := he.of_matrix.2
    unfold normalize
    have hends : ∀ c ∈ cells, Ends Blamed (Neat .scalar) (normalize c) := by
      intro c hc
      have hzc : ¬ MeetsZero c := fun h => hz (.cell hc h)
      exact (ih c hc (hcells c hc) hzc).attach.imp fun d hd => neat_normalize zero (hcells c hc) hzc hd.1 hd.2
    exact (normalizeCells_ends hends).bind fun ds hds => ⟨_, .cells hds⟩

end

/-! ## Factors that link -/

section
variable [Scalar α]

/-- Every product that tidying multiplies again, outside of sums, has shapes at all nodes, with single
    numbers in the cells, and factors that link as matrices; so do those of what the nested products come
    to. No zero comes up in a factor, nor is one added to a sum of matrices where the factors are multiplied. -/
inductive Tidiable : Expr α → Prop
  | const (v : α) : Tidiable (.const v)
  | var (m : Monomial α) : Tidiable (.var m)
  | sum (ts : List (Expr α)) : Tidiable (.sum ts)
  | product {s : Shape} {fs : List (Expr α)} : Neat s (.product fs) → Links none fs → ¬ AddsZero fs →
      (∀ f ∈ fs, ¬ MeetsZero f) → (∀ f ∈ fs, f.kind = .product → ∀ c, normalize f = .ok c → Links none c.factors) →
      (∀ f ∈ fs, Tidiable f) → Tidiable (.product fs)
  | matrix {g : Grid (Expr α)} : (∀ c ∈ g.cells, Tidiable c) → Tidiable (.matrix g)

/-- What stands before factors that link behind so many columns: a value without grids, a matrix with these
    columns, or a zero that has lost its shape. -/
inductive Ready : Option Nat → Expr α → Prop
  | number {p : Expr α} : Gridless p → Ready none p
  | matrix {r n : Nat} {p : Expr α} : Neat ⟨r, n⟩ p → Ready (some n) p
  | zero {k : Option Nat} {p : Expr α} : p.NearZero → Ready k p

omit [Scalar α] in
theorem Gridless.linking {e : Expr α} (h : Gridless e) : Formed linking e := by
  induction h with
  | const v => exact .const v
  | var _ => exact .var _
  | sum _ ih => exact .sum trivial ih
  | product hfs ih => exact .product (.of_gridless hfs) ih
  | matrix hg => exact hg.elim

theorem NearZero.gridless {e : Expr α} (h : e.NearZero) : Gridless e := by
  obtain ⟨v, rfl, -⟩ := h
  exact .const v

theorem Ready.neat {k : Option Nat} {p : Expr α} (h : Ready k p) : ∃ u, Neat u p := by
  cases h with
  | number hp => exact ⟨_, hp.neat⟩
  | matrix hp => exact ⟨_, hp⟩
  | zero hp => exact ⟨_, hp.neat⟩

theorem Ready.of_neatOrZero {s : Shape} {p : Expr α} (h : NeatOrZero s p) : Ready (some s.cols) p :=
  h.elim (fun h => .matrix (r := s.rows) h) .zero

/-- Zero times a value that is no grid is zero. -/
theorem mul_zero_left {v : α} {b : Expr α} (hv : Scalar.nearZero v = true) (hk : b.kind ≠ .matrix) :
    mul (.const v) b = .ok (.const 0) := by
  rw [← lift_eq_ok, Operations.mul_eq_step]
  cases b with
  | matrix g => exact absurd rfl hk
  | _ =>
    show liftM (Expr.scale v _) = _
    rw [scale_eq_step]
    exact if_pos hv

variable (zero : Scalar.nearZero (0 : α) = true)
include zero

/-- A factor without grids leaves the columns as they are. -/
theorem mul_ready_number {k : Option Nat} {p f : Expr α} (hp : Ready k p) (hf : Gridless f)
    (hadd : ¬ (Call.mul p f).AddsZero) :
    Succeeds (fun c => Ready k c ∧ (Formed linking p → Formed linking c)) (p.mul f) := by
  cases hp with
  | number hp => exact (mul_gridless hp hf).imp fun c hc => ⟨.number hc, fun _ => hc.linking⟩
  | @matrix r n _ hp =>
    have hmeet : Meeting ⟨r, n⟩ .scalar p f := Or.inr (Or.inl hf)
    refine (mul_meeting (Or.inr zero) hp hf.neat hmeet hadd).attach.imp ?_
    rintro c ⟨hc, u, hu, hneat⟩
    rw [Shape.times?_scalar_right] at hu
    cases hu
    exact ⟨.of_neatOrZero hneat, fun hlp => mul_linking hc hp hf.neat hmeet hlp hf.linking⟩
  | zero hp =>
    obtain ⟨v, rfl, hv⟩ := hp
    rw [mul_zero_left hv hf.kind]
    exact ⟨.zero ⟨0, rfl, zero⟩, fun _ => .const 0⟩

/-- A matrix that is linked brings its own columns. -/
theorem mul_ready_matrix {k : Option Nat} {p f : Expr α} {x : Shape} (hp : Ready k p) (hf : Neat x f)
    (hk : ∀ n ∈ k, n = x.rows) (hadd : ¬ (Call.mul p f).AddsZero) :
    Succeeds (fun c => Ready (some x.cols) c ∧ (Formed linking p → Formed linking f → Formed linking c)) (p.mul f) := by
  have hmul (s : Shape) (hs : s.times? x = some ⟨s.rows, x.cols⟩ ∨ s = .scalar) (hp : Neat s p) (hmeet : Meeting s x p f) :
      Succeeds (fun c => Ready (some x.cols) c ∧ (Formed linking p → Formed linking f → Formed linking c)) (p.mul f) := by
    refine (mul_meeting (Or.inr zero) hp hf hmeet hadd).attach.imp ?_
    rintro c ⟨hc, u, hu, hneat⟩
    refine ⟨?_, mul_linking hc hp hf hmeet⟩
    rcases hs with hs | rfl
    · rw [hs] at hu
      cases hu
      exact .of_neatOrZero (s := ⟨s.rows, x.cols⟩) hneat
    · rw [Shape.times?_scalar_left] at hu
      cases hu
      exact .of_neatOrZero hneat
  cases hp with
  | number hp => exact hmul _ (Or.inr rfl) hp.neat (Or.inl hp)
  | @matrix r n _ hp =>
    have hc : (⟨r, n⟩ : Shape).cols = x.rows := hk n rfl
    exact hmul _ (Or.inl (Shape.times?_of_cols_eq hc)) hp (Or.inr (Or.inr hc))
  | zero hp => exact hmul _ (Or.inr rfl) hp.neat (Or.inl hp.gridless)

/-- Factors that link are multiplied one after the other. -/
theorem foldlM_mul_links {gs done rest : List (Expr α)} {k : Option Nat} {p : Expr α}
    (hadd : ∀ a b, Operands gs a b → ¬ (Call.mul a b).AddsZero) (hpart : Partway gs done p rest) (hp : Ready k p)
    (hlinks : Links k rest) (hrest : ∀ f ∈ rest, ∃ x, Neat x f) :
    Succeeds (fun c => (∃ u, Neat u c) ∧ (Formed linking p → (∀ f ∈ rest, Formed linking f) → Formed linking c))
      (rest.foldlM mul p) := by
  induction hlinks generalizing done p with
  | nil => exact ⟨hp.neat, fun hlp _ => hlp⟩
  | number hf _ ih =>
    rw [List.foldlM_cons]
    refine (mul_ready_number zero hp hf (hadd _ _ (.next hpart))).attach.bind fun q hq => ?_
    refine (ih (hpart.next hq.1) hq.2.1 (List.forall_mem_cons.mp hrest).2).imp fun c hc => ⟨hc.1, fun hlp hlf => ?_⟩
    exact hc.2 (hq.2.2 hlp) (List.forall_mem_cons.mp hlf).2
  | matrix hs hrows _ ih =>
    obtain ⟨⟨x, hx⟩, hrest⟩ := List.forall_mem_cons.mp hrest
    rw [hx.shape] at hs
    cases hs
    rw [List.foldlM_cons]
    refine (mul_ready_matrix zero hp hx hrows (hadd _ _ (.next hpart))).attach.bind fun q hq => ?_
    refine (ih (hpart.next hq.1) hq.2.1 hrest).imp fun c hc => ⟨hc.1, fun hlp hlf => ?_⟩
    obtain ⟨hlf, hlfs⟩ := List.forall_mem_cons.mp hlf
    exact hc.2 (hq.2.2 hlp hlf) hlfs

/-- The first factor is multiplied to nothing, and the number that is taken out to all others. -/
theorem recombine_links {gs : List (Expr α)} (hadd : ∀ a b, Operands gs a b → ¬ (Call.mul a b).AddsZero)
    (hgs : ∀ g ∈ gs, ∃ x, Neat x g) (hlinks : Links none gs) :
    Succeeds (fun c => (∃ u, Neat u c) ∧ ((∀ g ∈ gs, Formed linking g) → Formed linking c)) (recombine gs) := by
  have hneat : ∀ f ∈ (splitCoefficient gs).2, ∃ x, Neat x f := forall_splitFrom (fun m _ => ⟨_, .var _⟩) hgs
  have hlinks : Links none (splitCoefficient gs).2 := hlinks.splitFrom
  have hlinking (h : ∀ g ∈ gs, Formed linking g) : ∀ f ∈ (splitCoefficient gs).2, Formed linking f := Formed.splitFrom h
  refine recombine_ends (fun v => ⟨⟨_, .const v⟩, fun _ => .const v⟩) fun first more h0 hr => ?_
  rw [hr] at hneat hlinks hlinking
  obtain ⟨⟨x, hfirst⟩, hmore⟩ := List.forall_mem_cons.mp hneat
  have hpart : Partway gs [first] first more := .first h0 hr
  obtain ⟨k, hready, hlinks⟩ : ∃ k, Ready k first ∧ Links k more := by
    cases hlinks with
    | number hf h => exact ⟨none, .number hf, h⟩
    | matrix hs _ h =>
      rw [hfirst.shape] at hs
      cases hs
      exact ⟨_, .matrix (r := x.rows) hfirst, h⟩
  refine (foldlM_mul_links zero hadd hpart hready hlinks hmore).attach.bind ?_
  rintro q ⟨hq, ⟨u, hneat⟩, hlq⟩
  have hmeet : Meeting .scalar u (.const (splitCoefficient gs).1) q := Or.inl (.const _)
  refine (mul_meeting (Or.inr zero) (.const _) hneat hmeet (hadd _ _ (.last (hpart.foldlM hq)))).attach.imp ?_
  rintro c ⟨hc, w, -, hcneat⟩
  refine ⟨hcneat.elim (fun h => ⟨w, h⟩) fun h => ⟨_, h.neat⟩, fun hlgs => ?_⟩
  obtain ⟨hlfirst, hlmore⟩ := List.forall_mem_cons.mp (hlinking hlgs)
  exact mul_linking hc (.const _) hneat hmeet (.const _) (hlq hlfirst hlmore)

omit zero [Scalar α] in
/-- The factors of products that link are put in their place. -/
theorem links_flatMap {k : Option Nat} {fs gs : List (Expr α)} (h : Links k fs)
    (hgs : List.Forall₂ (fun f g => (∀ x, f.shape = .ok x → g.shape = .ok x) ∧ (Gridless f → Gridless g) ∧
      Links none g.factors) fs gs) : Links k (gs.flatMap factors) := by
  induction h generalizing gs with
  | nil =>
    cases hgs
    exact .nil
  | number hf _ ih =>
    cases hgs with
    | cons hg hgs =>
      rw [List.flatMap_cons]
      exact .append_left (Everywhere.factors (hg.2.1 hf)) (ih hgs)
  | matrix hs hrows _ ih =>
    cases hgs with
    | cons hg hgs =>
      rw [List.flatMap_cons]
      exact hg.2.2.append (chained_factors (hg.1 _ hs)) hrows (ih hgs)

omit zero in
theorem kind_normalize {e c : Expr α} (h : normalize e = .ok c) (hk : e.kind ≠ .product) : c.kind ≠ .product := by
  cases e with
  | const v => cases normalize_const.mp h; exact hk
  | var m =>
    cases normalize_var.mp h
    rcases ofMonomial_const_or_var m with ⟨v, hm⟩ | hm
    · rw [hm]
      nofun
    · rw [hm]
      nofun
  | sum ts => cases normalize_sum.mp h; exact hk
  | product fs => exact absurd rfl hk
  | matrix g =>
    obtain ⟨cells, -, rfl⟩ := normalize_matrix.mp h
    nofun

/-- A product of factors that are tidied and link. -/
theorem normalize_links {s : Shape} {fs : List (Expr α)} (he : Neat s (.product fs)) (hlinks : Links none fs)
    (hadd : ¬ AddsZero fs) (hproducts : ∀ f ∈ fs, f.kind = .product → ∀ c, normalize f = .ok c → Links none c.factors)
    (hfs : ∀ f ∈ fs, ∀ x, Neat x f →
      Succeeds (fun c => Neat x c ∧ (Formed linking f → Formed linking c)) (normalize f)) :
    Succeeds (fun c => (∃ u, Neat u c) ∧ (Formed linking (.product fs) → Formed linking c)) (normalize (.product fs)) := by
  have hfactors : ∀ f ∈ fs, Succeeds (fun c =>
      ((∀ x, f.shape = .ok x → c.shape = .ok x) ∧ (Gridless f → Gridless c) ∧ Links none c.factors) ∧
        (∃ x, Neat x c) ∧ (Formed linking f → Formed linking c)) (normalize f) := by
    intro f hmem
    obtain ⟨x, hx⟩ := he.of_product.2 f hmem
    refine (hfs f hmem x hx).attach.imp ?_
    rintro c ⟨hc, hneat, hlc⟩
    refine ⟨⟨fun y hy => ?_, fun hg => Everywhere.normalize gridless_kept hc hg, ?_⟩, ⟨x, hneat⟩, hlc⟩
    · rw [hneat.shape, ← hx.shape, hy]
    · by_cases hk : f.kind = .product
      · exact hproducts f hmem hk c hc
      · have hk := kind_normalize hc hk
        cases c with
        | product gs => exact absurd rfl hk
        | _ => exact .single hneat.shape
  unfold normalize
  refine (normalizeFactors_ends hfactors).attach.bind ?_
  rintro _ ⟨hgs, hs, hhs, rfl⟩
  have hneat : ∀ g ∈ hs.flatMap factors, ∃ x, Neat x g := by
    refine forall_mem_spliced hhs fun f _ c hc => ?_
    obtain ⟨-, ⟨x, hx⟩, -⟩ := hc
    exact hx.factors.2
  have hlinking (h : Formed linking (.product fs)) : ∀ g ∈ hs.flatMap factors, Formed linking g :=
    forall_mem_spliced hhs fun f hf c hc => (hc.2.2 (h.children f hf)).factors
  refine (recombine_links zero (fun a b hab hz => hadd ⟨_, a, b, hgs, hab, hz⟩) hneat ?_).imp fun c hc =>
    ⟨hc.1, fun h => hc.2 (hlinking h)⟩
  exact links_flatMap hlinks (hhs.imp fun f c hfc => hfc.1)

/-- A tree in which no zero comes up is tidied to one of its shape, where the factors of its products
    link. -/
theorem normalize_tidied {s : Shape} {e : Expr α} (he : Neat s e) (ht : Tidiable e) (hz : ¬ MeetsZero e) :
    Succeeds (fun c => Neat s c ∧ (Formed linking e → Formed linking c)) (normalize e) := by
  induction e generalizing s with
  | const v =>
    unfold normalize
    exact ⟨he, id⟩
  | var m =>
    unfold normalize
    exact ⟨he.collapse, fun _ => .ofMonomial m⟩
  | sum ts =>
    unfold normalize
    exact ⟨he, id⟩
  | product fs ih =>
    cases ht with
    | product _ hlinks hadd hzf hproducts hfs =>
      refine (normalize_links zero he hlinks hadd hproducts fun f hf x hx => ih f hf hx (hfs f hf) (hzf f hf)).attach.imp ?_
      exact fun c hc => ⟨neat_normalize zero he hz hc.1 hc.2.1, hc.2.2⟩
  | matrix g ih =>
    obtain ⟨r, k, cells⟩ := g
    obtain ⟨rfl, hcells⟩ := he.of_matrix
    cases ht with
    | matrix ht =>
      have hcell : ∀ c ∈ cells, Succeeds (fun d => Neat .scalar d ∧
          (Formed linking (.matrix ⟨r, k, cells⟩) → Formed linking d)) (normalize c) := by
        intro c hc
        refine (ih c hc (hcells c hc) (ht c hc) fun h => hz (.cell hc h)).imp fun d hd => ⟨hd.1, fun h => ?_⟩
        exact hd.2 (h.children c hc)
      refine (normalizeCells_ends hcell).bind fun ds hds => ?_
      exact ⟨.cells fun d hd => (hds d hd).1, fun h => .matrix fun d hd => (hds d hd).2 h⟩

/-- Where all products within the nested ones link, so do the factors of what these come to. -/
theorem Tidiable.of_linking {s : Shape} {fs : List (Expr α)} (he : Neat s (.product fs)) (hlinks : Links none fs)
    (hadd : ¬ AddsZero fs) (hzf : ∀ f ∈ fs, ¬ MeetsZero f) (hproducts : ∀ f ∈ fs, f.kind = .product → Formed linking f)
    (hfs : ∀ f ∈ fs, Tidiable f) : Tidiable (.product fs) := by
  refine .product he hlinks hadd hzf (fun f hf hk c hc => ?_) hfs
  obtain ⟨x, hx⟩ := he.of_product.2 f hf
  obtain ⟨c', hc', hneat, hlinking⟩ := (normalize_tidied zero hx (hfs f hf) (hzf f hf)).eq_ok
  rw [hc] at hc'
  cases hc'
  exact (hlinking (hproducts f hf hk)).links hneat.shape

theorem normalize_tidiable {e : Expr α} (h : Tidiable e) : Succeeds (fun _ => True) (normalize e) := by
  induction h with
  | product he hlinks hadd hzf hproducts hfs =>
    refine (normalize_links zero he hlinks hadd hproducts fun f hf x hx => ?_).imp fun _ _ => trivial
    exact normalize_tidied zero hx (hfs f hf) (hzf f hf)
  | @matrix g _ ih =>
    obtain ⟨r, k, cells⟩ := g
    unfold normalize
    exact (normalizeCells_ends ih).bind fun _ _ => trivial
  | _ =>
    unfold normalize
    trivial

end

/-! ## Products that are worked out -/

section
variable [Scalar α] {gs more : List (Expr α)} {f g : Expr α} {v : α}

theorem normalize_cons (fs : List (Expr α)) (hgs : normalizeFactors fs = .ok gs)
    (hs : splitCoefficient gs = (v, f :: more)) (hv : Scalar.nearZero v = false) :
    normalize (.product fs) = more.foldlM mul f >>= mul (.const v) := by
  have hfirst : (splitCoefficient gs).2 = f :: more := by rw [hs]
  unfold normalize
  rw [hgs, ok_bind, recombine_cons (by rw [hs, hv]) hfirst, hs]

/-- Operations that have no answer where a zero is added to a sum of matrices multiply factors as the
    library does. -/
theorem foldlM_careful {n : Nat} {r : Except ArithError (Expr α)}
    (h : more.foldlM (Operations.careful n).mul f >>= (Operations.careful n).mul (.const v) = liftM r) :
    more.foldlM mul f >>= mul (.const v) = r := by
  induction more generalizing f with
  | nil =>
    rw [List.foldlM_nil, pure_bind] at h ⊢
    exact (careful_mul h).1
  | cons g gs ih =>
    rw [List.foldlM_cons, bind_assoc] at h ⊢
    obtain ⟨-, h⟩ := careful_bind h
    cases hp : mul f g with
    | error x =>
      rw [hp] at h
      exact lift_injective h
    | ok p =>
      rw [hp] at h
      exact ih h

theorem Partway.careful {n : Nat} {r : Except ArithError (Expr α)} {done rest : List (Expr α)} {p : Expr α}
    (hp : Partway gs done p rest) (hs : splitCoefficient gs = (v, f :: more))
    (h : more.foldlM (Operations.careful n).mul f >>= (Operations.careful n).mul (.const v) = liftM r) :
    rest.foldlM (Operations.careful n).mul p >>= (Operations.careful n).mul (.const v) = liftM r := by
  induction hp with
  | first _ hr =>
    rw [hs] at hr
    cases hr
    exact h
  | next _ hq ih =>
    rw [List.foldlM_cons, bind_assoc] at ih
    obtain ⟨-, hrest⟩ := careful_bind ih
    rw [hq] at hrest
    exact hrest

/-- What a product comes to, if this can be worked out without adding a zero to a sum of matrices. -/
theorem normalize_careful (fs : List (Expr α)) {n : Nat} {r : Except ArithError (Expr α)}
    (hgs : normalizeFactors fs = .ok gs) (hs : splitCoefficient gs = (v, f :: more)) (hv : Scalar.nearZero v = false)
    (h : more.foldlM (Operations.careful n).mul f >>= (Operations.careful n).mul (.const v) = liftM r) :
    normalize (.product fs) = r ∧ ¬ AddsZero fs := by
  refine ⟨(normalize_cons fs hgs hs hv).trans (foldlM_careful h), ?_⟩
  rintro ⟨gs', a, b, hgs', hab, hz⟩
  rw [hgs] at hgs'
  cases hgs'
  cases hab with
  | next hp =>
    have hrest := hp.careful hs h
    rw [List.foldlM_cons, bind_assoc] at hrest
    exact (careful_bind hrest).1 hz
  | last hp =>
    have hlast := hp.careful hs h
    rw [List.foldlM_nil, pure_bind] at hlast
    rw [hs] at hz
    exact (careful_mul hlast).2 hz

theorem partway_pair {done rest : List (Expr α)} {p : Expr α} (hs : splitCoefficient gs = (v, [f, g]))
    (h : Partway gs done p rest) : (p = f ∧ rest = [g]) ∨ (mul f g = .ok p ∧ rest = []) := by
  induction h with
  | first _ hr =>
    rw [hs] at hr
    cases hr
    exact Or.inl ⟨rfl, rfl⟩
  | next _ hmul ih =>
    rcases ih with ⟨rfl, hrest⟩ | ⟨-, hrest⟩
    · cases hrest
      exact Or.inr ⟨hmul, rfl⟩
    · cases hrest

/-- A product of two factors. No zero comes up where nothing comes out as a number. -/
theorem normalize_pair {fs : List (Expr α)} {n : Nat} {p c : Expr α} (hgs : normalizeFactors fs = .ok gs)
    (hs : splitCoefficient gs = (v, [f, g])) (hv : Scalar.nearZero v = false)
    (hp : (Operations.careful n).mul f g = .ok p) (hc : (Operations.careful n).mul (.const v) p = .ok c)
    (hfs : ∀ f ∈ fs, ¬ MeetsZero f) (hkinds : f.kind ≠ .constant ∧ p.kind ≠ .constant ∧ c.kind ≠ .constant) :
    normalize (.product fs) = .ok c ∧ ¬ MeetsZero (.product fs) := by
  have hfold : [g].foldlM (Operations.careful n).mul f >>= (Operations.careful n).mul (.const v) = .ok c := by
    rw [List.foldlM_cons, hp]
    exact hc
  obtain ⟨hnormal, hadd⟩ := normalize_careful fs (r := .ok c) hgs hs hv hfold
  have hmul : mul f g = .ok p := (careful_mul (r := .ok p) hp).1
  have hpasses : ¬ PassesZero (.product fs) := by
    intro hz
    cases hz with
    | inside hf hz => exact hfs _ hf (.passes hz)
    | whole hd hz _ =>
      rw [hnormal] at hd
      cases hd
      exact hkinds.2.2 hz.kind
    | start hgs' hq hz =>
      rw [hgs] at hgs'
      cases hgs'
      rcases partway_pair hs hq with ⟨rfl, -⟩ | ⟨hq, -⟩
      · exact hkinds.1 hz.kind
      · rw [hmul] at hq
        cases hq
        exact hkinds.2.1 hz.kind
  refine ⟨hnormal, fun hz => ?_⟩
  cases hz with
  | passes hz => exact hpasses hz
  | adds hz => exact hadd hz
  | factor hf hz => exact hfs _ hf hz

end

/-! ## The program's numbers -/

/-- Where every node of a tree has a shape, tidying keeps it so, and keeps the shape of the tree unless
    it comes past a zero. With single numbers in the cells, and no zero, it is refused only with a single
    number among the operands; and it is not where the grids of each product link. -/
theorem normalize_shapes {e : Expr Float} (he : Shaped e) :
    (∀ c, e.normalize = .ok c → Shaped c ∧ (c.shape = e.shape ∨ PassesZero e)) ∧
      (∀ s x, Neat s e → e.normalize = .error x → Blamed x ∨ MeetsZero e) ∧
      (Tidiable e → ∃ c, e.normalize = .ok c) := by
  have zero : Scalar.nearZero (0 : Float) = true := by decide
  refine ⟨fun c hc => ⟨normalize_shaped zero hc he, shape_normalize zero hc he⟩, fun s x hs hx => ?_, fun h => ?_⟩
  · by_cases hz : MeetsZero e
    · exact Or.inr hz
    · have hends := normalize_blamed zero hs hz
      rw [hx] at hends
      exact Or.inl hends
  · obtain ⟨c, hc, -⟩ := (normalize_tidiable zero h).eq_ok
    exact ⟨c, hc⟩

/-- A row and a column come to a single cell, and names go into a sum of matrices. A matrix of one cell is
    not multiplied to a larger one. -/
theorem normalize_shapes_cell :
    let row : Expr Float := .matrix ⟨1, 2, [.const 1, .const 2]⟩
    let column : Expr Float := .matrix ⟨2, 1, [.const 3, .ofName "x"]⟩
    let grid : Expr Float := .matrix ⟨2, 2, [.const 1, .const 2, .const 3, .const 4]⟩
    let cell : Expr Float := .matrix ⟨1, 1, [.const 5]⟩
    let total : Expr Float := .sum [grid, .matrix ⟨2, 2, [.const 5, .const 6, .const 7, .ofName "y"]⟩]
    let nested : Expr Float := .product [.ofName "z", .product [.ofName "x", total]]
    (∃ c, normalize (.product [row, column]) = .ok c ∧ Shaped c ∧ c.shape = .ok ⟨1, 1⟩) ∧
    (∃ c, normalize nested = .ok c ∧ Shaped c ∧ c.shape = .ok ⟨2, 2⟩) ∧
    ∃ x, normalize (.product [grid, cell]) = .error x ∧ Blamed x := by
  intro row column grid cell total nested
  have zero : Scalar.nearZero (0 : Float) = true := by decide
  have hone : Scalar.nearZero (1 : Float) = false := by decide
  have hrow : Neat ⟨1, 2⟩ row := .cells (by simp [Neat.const])
  have hcolumn : Neat ⟨2, 1⟩ column := .cells (by simp [Neat.const, Neat.var, ofName])
  have hgrid : Neat ⟨2, 2⟩ grid := .cells (by simp [Neat.const])
  have hcell : Neat ⟨1, 1⟩ cell := .cells (by simp [Neat.const])
  refine ⟨?_, ?_, ?_⟩
  · have hneat : Neat ⟨1, 1⟩ (.product [row, column]) :=
      .of_factors rfl (by simpa using ⟨⟨_, hrow⟩, ⟨_, hcolumn⟩⟩)
    obtain ⟨c, hc⟩ : ∃ c, [column].foldlM (Operations.careful 8).mul row >>= (Operations.careful 8).mul (.const 1) = .ok c := by
      set_option maxRecDepth 20000 in exact ⟨_, rfl⟩
    obtain ⟨-, hadd⟩ := normalize_careful [row, column] (r := .ok c) rfl rfl hone hc
    have hkinds : ∀ f ∈ [row, column], f.kind = .matrix := by simp [row, column, kind]
    have htidiable : Tidiable (.product [row, column]) := by
      refine .of_linking zero hneat (.matrix hrow.shape (by simp) (.matrix hcolumn.shape (by simp) .nil)) hadd ?_ ?_ ?_
      · exact List.forall_mem_cons.mpr ⟨not_meetsZero_grid (by simp [kind]),
          List.forall_mem_singleton.mpr (not_meetsZero_grid (by simp [kind, ofName]))⟩
      · exact fun f hf hk => absurd ((hkinds f hf).symm.trans hk) (by decide)
      · refine List.forall_mem_cons.mpr ⟨.matrix (by simp [Tidiable.const]), List.forall_mem_singleton.mpr (.matrix ?_)⟩
        simp [Tidiable.const, Tidiable.var, ofName]
    obtain ⟨hshapes, -, hsuccess⟩ := normalize_shapes hneat.shaped
    obtain ⟨c, hc⟩ := hsuccess htidiable
    obtain ⟨hshaped, hkept⟩ := hshapes c hc
    exact ⟨c, hc, hshaped, (hkept.resolve_right (not_passesZero_of_grids hone hkinds)).trans hneat.shape⟩
  · have hname (n : String) : ¬ MeetsZero (.ofName n : Expr Float) := fun h => by simpa [ofName, kind] using h.kind
    have htotal : Neat ⟨2, 2⟩ total := by
      refine .of_terms (by simp) (List.forall_mem_cons.mpr ⟨hgrid, List.forall_mem_singleton.mpr (.cells ?_)⟩)
      simp [Neat.const, Neat.var, ofName]
    have htotal' : ¬ MeetsZero total := fun h => by simpa [total, kind] using h.kind
    have hneat : Neat ⟨2, 2⟩ (.product [.ofName "x", total]) :=
      .of_factors rfl (by simpa using ⟨⟨_, .var _⟩, ⟨_, htotal⟩⟩)
    have hnested : Neat ⟨2, 2⟩ nested := .of_factors rfl (by simpa using ⟨⟨_, .var _⟩, ⟨_, hneat⟩⟩)
    obtain ⟨p, g, q, h, hp, hg, hq, hh, hpk, hqk⟩ : ∃ p g q h, (Operations.careful 8).mul (.ofName "x") total = .ok p ∧
        (Operations.careful 8).mul (.const (1 * 1)) p = .ok (.matrix g) ∧
        (Operations.careful 8).mul (.ofName "z") (.matrix g) = .ok q ∧
        (Operations.careful 8).mul (.const (1 * 1)) q = .ok (.matrix h) ∧ p.kind = .matrix ∧ q.kind = .matrix := by
      set_option maxRecDepth 20000 in exact ⟨_, _, _, _, rfl, rfl, rfl, rfl, rfl, rfl⟩
    have hleaves : ∀ f ∈ [.ofName "x", total], ¬ MeetsZero f :=
      List.forall_mem_cons.mpr ⟨hname "x", List.forall_mem_singleton.mpr htotal'⟩
    obtain ⟨hnormal, hclear⟩ := normalize_pair rfl rfl (by decide) hp hg hleaves ⟨by decide, by simp [hpk], by simp [kind]⟩
    have hfactors : ∀ f ∈ [.ofName "z", .product [.ofName "x", total]], ¬ MeetsZero f :=
      List.forall_mem_cons.mpr ⟨hname "z", List.forall_mem_singleton.mpr hclear⟩
    have hgs : normalizeFactors [.ofName "z", .product [.ofName "x", total]] = .ok [.ofName "z", .matrix g] :=
      normalizeFactors_eq_ok.mpr ⟨[.ofName "z", .matrix g], .cons rfl (.cons hnormal .nil), rfl⟩
    obtain ⟨-, hclear'⟩ := normalize_pair hgs rfl (by decide) hq hh hfactors ⟨by decide, by simp [hqk], by simp [kind]⟩
    have hlarge {f : Expr Float} (hf : Neat ⟨2, 2⟩ f) (hs : f.shape = .ok .scalar) : Gridless f := by
      rw [hf.shape] at hs
      cases hs
    have hlinks : Links none [.ofName "x", total] :=
      .of_factorsShape hneat.of_product.1
        (List.forall_mem_cons.mpr ⟨fun _ => .var trivial, List.forall_mem_singleton.mpr (hlarge htotal)⟩)
    have hlinks' : Links none [.ofName "z", .product [.ofName "x", total]] :=
      .of_factorsShape hnested.of_product.1
        (List.forall_mem_cons.mpr ⟨fun _ => .var trivial, List.forall_mem_singleton.mpr (hlarge hneat)⟩)
    have hinner : Tidiable (.product [.ofName "x", total]) :=
      .of_linking zero hneat hlinks (fun h => hclear (.adds h)) hleaves (by simp [ofName, kind, total])
        (by simpa using ⟨.var _, .sum _⟩)
    have hlinked : Formed linking (.product [.ofName "x", total]) := by
      refine .product hlinks (List.forall_mem_cons.mpr ⟨.var _, List.forall_mem_singleton.mpr (.sum trivial ?_)⟩)
      refine List.forall_mem_cons.mpr ⟨.matrix ?_, List.forall_mem_singleton.mpr (.matrix ?_)⟩
      · simp [Formed.const]
      · simp [Formed.const, Formed.var, ofName]
    have htidiable : Tidiable nested := by
      refine .of_linking zero hnested hlinks' (fun h => hclear' (.adds h)) hfactors ?_ ?_
      · rintro f hf hk
        rcases List.mem_cons.mp hf with rfl | hf
        · cases hk
        · exact List.mem_singleton.mp hf ▸ hlinked
      · exact List.forall_mem_cons.mpr ⟨.var _, List.forall_mem_singleton.mpr hinner⟩
    obtain ⟨hshapes, -, hsuccess⟩ := normalize_shapes hnested.shaped
    obtain ⟨d, hd⟩ := hsuccess htidiable
    obtain ⟨hshaped, hkept⟩ := hshapes d hd
    exact ⟨d, hd, hshaped, (hkept.resolve_right fun h => hclear' (.passes h)).trans hnested.shape⟩
  · have hneat : Neat ⟨2, 2⟩ (.product [grid, cell]) := .of_factors rfl (by simpa using ⟨⟨_, hgrid⟩, ⟨_, hcell⟩⟩)
    obtain ⟨herror, hadd⟩ : normalize (.product [grid, cell]) = .error (.dimensionMismatch .mul ⟨2, 2⟩ ⟨1, 1⟩) ∧
        ¬ AddsZero [grid, cell] :=
      normalize_careful [grid, cell] (n := 8) rfl rfl hone rfl
    have hzero : ¬ MeetsZero (.product [grid, cell]) := by
      intro h
      cases h with
      | passes h => exact not_passesZero_of_grids hone (by simp [grid, cell, kind]) h
      | adds h => exact hadd h
      | factor hf h =>
        have hleaves : ∀ f ∈ [grid, cell], ¬ MeetsZero f :=
          List.forall_mem_cons.mpr ⟨not_meetsZero_grid (by simp [kind]),
            List.forall_mem_singleton.mpr (not_meetsZero_grid (by simp [kind]))⟩
        exact hleaves _ hf h
    obtain ⟨-, hrefused, -⟩ := normalize_shapes hneat.shaped
    exact ⟨_, herror, (hrefused _ _ hneat herror).resolve_right hzero⟩

/-- A product with a factor zero is the number zero. A grid of one cell is not multiplied by a larger
    grid, though it counts as a single number beside it; so are sums that come to such a grid. Grids of one
    cell that are no numbers are multiplied cell by cell. A zero in a sum of matrices is a single number
    where it is added; and where one comes up within a product, what follows it gives the product another
    shape. -/
theorem normalize_shape_differs :
    let grid : Expr Float := .matrix ⟨2, 2, [.const 1, .const 2, .const 3, .const 4]⟩
    let cell : Expr Float := .matrix ⟨1, 1, [.const 5]⟩
    let single : Expr Float := .sum [cell, .ofName "y"]
    let p : Expr Float := .product [grid, .ofName "x"]
    let q : Expr Float := .product [grid, .ofName "y"]
    let s : Expr Float := .sum [p, q, .sum [p, .product [.const (-1), grid, .ofName "x"]]]
    let square : Expr Float :=
      .matrix ⟨3, 3, [.const 1, .const 2, .const 3, .const 4, .const 5, .const 6, .const 7, .const 8, .const 9]⟩
    let row : Expr Float := .matrix ⟨1, 2, [.const 1, .const 2]⟩
    let wide : Expr Float := .matrix ⟨2, 3, [.const 1, .const 2, .const 3, .const 4, .const 5, .const 6]⟩
    let nothing : Expr Float := .sum [.product [wide, .ofName "y"], .product [.const (-1), wide, .ofName "y"]]
    let nested : Expr Float := .product [.ofName "x", nothing, square]
    (Shaped (.product [.const 0, grid]) ∧ (Expr.product [.const 0, grid]).shape = .ok ⟨2, 2⟩ ∧
      normalize (.product [.const 0, grid]) = .ok (.const 0)) ∧
    (Shaped (.product [grid, cell]) ∧ (Expr.product [grid, cell]).shape = .ok ⟨2, 2⟩ ∧
      normalize (.product [grid, cell]) = .error (.dimensionMismatch .mul ⟨2, 2⟩ ⟨1, 1⟩)) ∧
    (Shaped (.product [.ofName "x", single, grid]) ∧ (Expr.product [.ofName "x", single, grid]).shape = .ok ⟨2, 2⟩ ∧
      normalize (.product [.ofName "x", single, grid]) = .error (.dimensionMismatch .mul ⟨1, 1⟩ ⟨2, 2⟩)) ∧
    (Shaped (.product [.const 2, s]) ∧ (Expr.product [.const 2, s]).shape = .ok ⟨2, 2⟩ ∧
      normalize (.product [.const 2, s]) = .error (.dimensionMismatch .add ⟨2, 2⟩ ⟨1, 1⟩)) ∧
    (Shaped (.product [.matrix ⟨1, 1, [grid]⟩, .matrix ⟨1, 1, [square]⟩]) ∧
      (Expr.product [.matrix ⟨1, 1, [grid]⟩, .matrix ⟨1, 1, [square]⟩]).shape = .ok ⟨1, 1⟩ ∧
      normalize (.product [.matrix ⟨1, 1, [grid]⟩, .matrix ⟨1, 1, [square]⟩]) =
        .error (.dimensionMismatch .mul ⟨2, 2⟩ ⟨3, 3⟩)) ∧
    (Shaped (.product [row, nested]) ∧ (Expr.product [row, nested]).shape = .ok ⟨1, 3⟩ ∧
      normalize (.product [row, nested]) = .error (.dimensionMismatch .mul ⟨1, 2⟩ ⟨3, 3⟩)) := by
  intro grid cell single p q s square row wide nothing nested
  have hgrid : Shaped grid := .matrix (by simp)
  have hcell : Shaped cell := .matrix (by simp)
  have hsquare : Shaped square := .matrix (by simp)
  have hname (n : String) : Shaped (.ofName n : Expr Float) := .var _
  have hone : Scalar.nearZero (1 : Float) = false := by decide
  refine ⟨⟨?_, rfl, ?_⟩, ⟨?_, rfl, ?_⟩, ⟨?_, rfl, ?_⟩, ⟨?_, rfl, ?_⟩, ⟨?_, rfl, ?_⟩, ?_, rfl, ?_⟩
  · exact .product (s := ⟨2, 2⟩) rfl (by simp [hgrid])
  · exact (recombine_zero (by decide) : recombine [.const 0, grid] = .ok (.const 0))
  · exact .product (s := ⟨2, 2⟩) rfl (by simp [hgrid, hcell])
  · exact (normalize_careful [grid, cell] (n := 8) rfl rfl hone rfl).1
  · have hsingle : Shaped single := .sum (s := .scalar) rfl (by simp [hcell, hname])
    exact .product (s := ⟨2, 2⟩) rfl (by simp [hname, hsingle, hgrid])
  · have hgs : normalizeFactors [.ofName "x", single, grid] = .ok [.ofName "x", single, grid] := rfl
    have hs : splitCoefficient [.ofName "x", single, grid] = (1 * 1, [.ofName "x", single, grid]) := rfl
    refine (normalize_careful _ (n := 8) hgs hs (by decide) ?_).1
    set_option maxRecDepth 20000 in rfl
  · have hp : Shaped p := .product (s := ⟨2, 2⟩) rfl (by simp [hgrid, hname])
    have hq : Shaped q := .product (s := ⟨2, 2⟩) rfl (by simp [hgrid, hname])
    have hp' : Shaped (.product [.const (-1), grid, .ofName "x"]) := .product (s := ⟨2, 2⟩) rfl (by simp [hgrid, hname])
    have hzero : Shaped (.sum [p, .product [.const (-1), grid, .ofName "x"]]) := .sum (s := ⟨2, 2⟩) rfl (by simp [hp, hp'])
    have hs : Shaped s := .sum (s := ⟨2, 2⟩) rfl (by simp [hp, hq, hzero])
    exact .product (s := ⟨2, 2⟩) rfl (by simp [hs])
  · have hscale : scale (1 * 2) s = .error (.dimensionMismatch .add ⟨2, 2⟩ ⟨1, 1⟩) := by
      set_option maxRecDepth 20000 in rfl
    have hmul : mul (.const (1 * 2)) s = scale (1 * 2) s := by
      unfold mul
      rfl
    have hs : splitCoefficient [.const 2, s] = (1 * 2, [s]) := rfl
    rw [normalize_cons [.const 2, s] rfl hs (by decide), List.foldlM_nil, pure_bind]
    exact hmul.trans hscale
  · have hcells : ∀ g ∈ [Expr.matrix ⟨1, 1, [grid]⟩, .matrix ⟨1, 1, [square]⟩], Shaped g :=
      List.forall_mem_cons.mpr ⟨.matrix (by simp [hgrid]), List.forall_mem_singleton.mpr (.matrix (by simp [hsquare]))⟩
    exact .product (s := ⟨1, 1⟩) rfl hcells
  · refine (normalize_careful [.matrix ⟨1, 1, [grid]⟩, .matrix ⟨1, 1, [square]⟩] (n := 8) rfl rfl hone ?_).1
    rfl
  · have hwide : Shaped wide := .matrix (by simp)
    have hrow : Shaped row := .matrix (by simp)
    have hterm : Shaped (.product [wide, .ofName "y"]) := .product (s := ⟨2, 3⟩) rfl (by simp [hwide, hname])
    have hterm' : Shaped (.product [.const (-1), wide, .ofName "y"]) := .product (s := ⟨2, 3⟩) rfl (by simp [hwide, hname])
    have hnothing : Shaped nothing := .sum (s := ⟨2, 3⟩) rfl (by simp [hterm, hterm'])
    have hnested : Shaped nested := .product (s := ⟨2, 3⟩) rfl (by simp [hname, hnothing, hsquare])
    exact .product (s := ⟨1, 3⟩) rfl (by simp [hrow, hnested])
  · -- The sum comes out as zero when the name is multiplied into it, and the square grid follows.
    obtain ⟨g, hg, hmul⟩ : ∃ g, [nothing, square].foldlM (Operations.careful 8).mul (.ofName "x") >>=
        (Operations.careful 8).mul (.const (1 * 1)) = .ok (.matrix g) ∧
        [.matrix g].foldlM (Operations.careful 8).mul row >>= (Operations.careful 8).mul (.const 1) =
          .error (.refused (.dimensionMismatch .mul ⟨1, 2⟩ ⟨3, 3⟩)) := by
      set_option maxRecDepth 20000 in exact ⟨_, rfl, rfl⟩
    have hgs : normalizeFactors [.ofName "x", nothing, square] = .ok [.ofName "x", nothing, square] := rfl
    have hs : splitCoefficient [.ofName "x", nothing, square] = (1 * 1, [.ofName "x", nothing, square]) := rfl
    have hnested : normalize nested = .ok (.matrix g) := (normalize_careful _ hgs hs (by decide) hg).1
    have hfactors : normalizeFactors [row, nested] = .ok [row, .matrix g] :=
      normalizeFactors_eq_ok.mpr ⟨[row, .matrix g], .cons rfl (.cons hnested .nil), rfl⟩
    exact (normalize_careful [row, nested] hfactors rfl hone hmul).1

end SymbolicAlgebra.Expr
