/-
  SymbolicAlgebra.Proofs.Refusals.Linking — factors that link as matrices.

  The shape of a product counts a matrix of one cell among the factors as a single number, but where
  factors are multiplied it is a matrix like the others. `Links` is the stricter reading: the columns of a
  factor are as many as the rows of the next, factors without grids left out. It makes a difference only for
  single numbers with a grid in them (`Links.of_factorsShape`). Factors that are linked can be put behind
  others (`Links.append`), and so can those of a product in its place.

  Values that meet as matrices are multiplied, unless a zero is in the way (`mul_meeting`). Negation,
  addition and scaling change nothing but numbers in products (`linking_kept`), and such a multiplication
  makes products out of the factors of both values. So all the products in what it comes to link if those
  in the values do (`mul_linking`).
-/

import SymbolicAlgebra.Proofs.Forms
import SymbolicAlgebra.Proofs.Shapes.Tidying

namespace SymbolicAlgebra.Expr

variable {α : Type}

/-! ## Factors that link -/

/-- Behind so many columns, if there is a matrix before them, the factors link as matrices, columns to rows.
    Those without a grid leave the columns as they are. -/
inductive Links : Option Nat → List (Expr α) → Prop
  | nil {k : Option Nat} : Links k []
  | number {k : Option Nat} {f : Expr α} {fs : List (Expr α)} : Gridless f → Links k fs → Links k (f :: fs)
  | matrix {k : Option Nat} {s : Shape} {f : Expr α} {fs : List (Expr α)} : f.shape = .ok s → (∀ n ∈ k, n = s.rows) →
      Links (some s.cols) fs → Links k (f :: fs)

namespace Links

variable {k : Option Nat} {s u : Shape} {e f : Expr α} {fs gs : List (Expr α)}

theorem single (hs : e.shape = .ok s) : Links none [e] := .matrix hs (by simp) .nil

/-- Where single numbers have no grids in them, the factors of a product that has a shape link. -/
theorem of_factorsShape {chain : Option Shape} (hs : factorsShape chain fs = .ok s)
    (hfs : ∀ f ∈ fs, f.shape = .ok .scalar → Gridless f) : Links (chain.map Shape.cols) fs := by
  induction fs generalizing chain with
  | nil => exact .nil
  | cons f fs ih =>
    obtain ⟨hf, hfs⟩ := List.forall_mem_cons.mp hfs
    obtain ⟨x, hx, hstep⟩ := factorsShape_cons hs
    rcases hstep with ⟨rfl, hrest⟩ | ⟨-, rfl, hrest⟩ | ⟨-, q, rfl, hc, hrest⟩
    · exact .number (hf hx) (ih hrest hfs)
    · exact .matrix hx (by simp) (ih hrest hfs)
    · exact .matrix hx (by simpa using hc) (ih hrest hfs)

/-- With nothing before them less is asked of the factors. -/
theorem mono {k' : Option Nat} (h : Links k fs) (hk : ∀ n ∈ k', n ∈ k) : Links k' fs := by
  induction h with
  | nil => exact .nil
  | number hf _ ih => exact .number hf (ih hk)
  | matrix hs hrows hfs _ => exact .matrix hs (fun n hn => hrows n (hk n hn)) hfs

/-- The rows of linked matrices are those of the first. -/
theorem rows (h : Links (some u.cols) fs) (hs : Chained u fs s) : s.rows = u.rows := by
  generalize hk : some u.cols = k at h
  induction h generalizing u with
  | nil =>
    cases hs
    rfl
  | number hf _ ih =>
    cases hs with
    | cons hx hu hs =>
      obtain rfl := hf.eq_scalar hx
      rw [Shape.times?_scalar_right] at hu
      cases hu
      exact ih hs hk
  | matrix hx hrows _ ih =>
    subst hk
    cases hs with
    | cons hx' hu hs =>
      rw [hx] at hx'
      cases hx'
      rw [Shape.times?_of_cols_eq (hrows _ rfl)] at hu
      cases hu
      have hrest := ih hs rfl
      exact hrest

theorem append_some (h : Links (some u.cols) fs) (hs : Chained u fs s) (hgs : Links (some s.cols) gs) :
    Links (some u.cols) (fs ++ gs) := by
  generalize hk : some u.cols = k at h
  induction h generalizing u with
  | nil =>
    cases hs
    exact hk ▸ hgs
  | number hf _ ih =>
    cases hs with
    | cons hx hu hs =>
      obtain rfl := hf.eq_scalar hx
      rw [Shape.times?_scalar_right] at hu
      cases hu
      exact .number hf (ih hs hk)
  | matrix hx hrows _ ih =>
    subst hk
    cases hs with
    | cons hx' hu hs =>
      rw [hx] at hx'
      cases hx'
      have hc := hrows _ rfl
      rw [Shape.times?_of_cols_eq hc] at hu
      cases hu
      exact .matrix hx hrows (ih hs rfl)

/-- The factors of a value that fits in between are put there. -/
theorem append (h : Links none fs) (hs : Chained .scalar fs s) (hk : ∀ n ∈ k, n = s.rows) (hgs : Links (some s.cols) gs) :
    Links k (fs ++ gs) := by
  generalize hn : (none : Option Nat) = n at h
  induction h with
  | nil =>
    cases hs
    exact hgs.mono fun n hn => by rw [hk n hn]; rfl
  | number hf _ ih =>
    cases hs with
    | cons hx hu hs =>
      obtain rfl := hf.eq_scalar hx
      cases hu
      exact .number hf (ih hs hn)
  | matrix hx _ hfs _ =>
    cases hs with
    | cons hx' hu hs =>
      rw [hx] at hx'
      cases hx'
      rw [Shape.times?_scalar_left] at hu
      cases hu
      exact .matrix hx (fun n hn => (hk n hn).trans (hfs.rows hs)) (hfs.append_some hs hgs)

/-- Factors without grids can be put in front or behind. -/
theorem append_left (hfs : ∀ f ∈ fs, Gridless f) (h : Links k gs) : Links k (fs ++ gs) := by
  induction fs with
  | nil => exact h
  | cons f fs ih =>
    obtain ⟨hf, hfs⟩ := List.forall_mem_cons.mp hfs
    exact .number hf (ih hfs)

theorem of_gridless (hfs : ∀ f ∈ fs, Gridless f) : Links k fs := by
  rw [← List.append_nil fs]
  exact append_left hfs .nil

theorem append_right (h : Links k fs) (hgs : ∀ g ∈ gs, Gridless g) : Links k (fs ++ gs) := by
  induction h with
  | nil => exact of_gridless hgs
  | number hf _ ih => exact .number hf ih
  | matrix hs hrows _ ih => exact .matrix hs hrows ih

/-- Other factors of the same shapes link as well, if there are grids in none but those that had some. -/
theorem congr (h : Links k fs) (hgs : List.Forall₂ (fun f g => g.shape = f.shape ∧ (Gridless f → Gridless g)) fs gs) :
    Links k gs := by
  induction h generalizing gs with
  | nil =>
    cases hgs
    exact .nil
  | number hf _ ih =>
    cases hgs with
    | cons hg hgs => exact .number (hg.2 hf) (ih hgs)
  | matrix hs hrows _ ih =>
    cases hgs with
    | cons hg hgs => exact .matrix (hg.1.trans hs) hrows (ih hgs)

/-- A single number in front can be left out. -/
theorem tail (h : Links k (f :: fs)) (hf : f.shape = .ok .scalar) : Links k fs := by
  cases h with
  | number _ h => exact h
  | matrix hs hrows h =>
    rw [hf] at hs
    cases hs
    exact h.mono fun n hn => by rw [hrows n hn]; rfl

variable [Scalar α]

theorem splitFrom {v : α} (h : Links k fs) : Links k (splitFrom v fs).2 := by
  induction fs generalizing k v with
  | nil => exact .nil
  | cons f fs ih =>
    cases f with
    | const w => exact ih (h.tail rfl)
    | var m => exact .number (.var trivial) (ih (h.tail rfl))
    | _ =>
      cases h with
      | number hf h => exact .number hf (ih h)
      | matrix hs hrows h => exact .matrix hs hrows (ih h)

theorem negFactors (h : Links k fs) : Links k (negFactors fs) := by
  rcases negFactors_cases fs with ⟨xs, f, ys, rfl, hf, hc⟩ | ⟨-, hc⟩
  · rw [hc]
    have hflip : Gridless f.flipSign := by
      cases f with
      | const v => exact .const _
      | var m => exact .var trivial
      | _ => cases hf
    have hsame (es : List (Expr α)) :
        List.Forall₂ (fun f g : Expr α => g.shape = f.shape ∧ (Gridless f → Gridless g)) es es :=
      List.forall₂_same.mpr fun _ _ => ⟨rfl, id⟩
    exact h.congr (List.rel_append (hsame xs) (.cons ⟨shape_flipSign f, fun _ => hflip⟩ (hsame ys)))
  · rw [hc]
    exact .number (.const _) h

end Links

/-! ## Trees in which all products link -/

/-- The factors of every product link as matrices. -/
def linking : Form α := ⟨fun _ => True, Links none⟩

theorem Formed.links {e : Expr α} {s : Shape} (h : Formed linking e) (hs : e.shape = .ok s) : Links none e.factors := by
  cases e with
  | product fs => exact h.of_product
  | _ => exact .single hs

variable [Scalar α]

theorem linking_kept : (linking : Form α).Kept where
  terms _ := trivial
  neg h := h.negFactors
  change h := .number (.const _) (h.tail rfl)
  drop _ h := h.tail rfl
  put _ h := .number (.const _) h
  split _ h := h.splitFrom

/-- There are no grids in one of the values, or the columns of the left one are as many as the rows of the
    right one. -/
def Meeting (s t : Shape) (a b : Expr α) : Prop := Gridless a ∨ Gridless b ∨ s.cols = t.rows

section
variable {s t : Shape} {a b c : Expr α}

omit [Scalar α] in
theorem meeting_scalars : Meeting .scalar .scalar a b := Or.inr (Or.inr rfl)

omit [Scalar α] in
theorem Meeting.of_parts {a' b' : Expr α} (h : Meeting s t a b) (ha : Gridless a → Gridless a')
    (hb : Gridless b → Gridless b') : Meeting s t a' b' :=
  h.imp ha (Or.imp_left hb)

omit [Scalar α] in
theorem links_append (ha : a.shape = .ok s) (hb : b.shape = .ok t) (h : Meeting s t a b) (hla : Formed linking a)
    (hlb : Formed linking b) : Links none (a.factors ++ b.factors) := by
  have hfs := hla.links ha
  have hgs := hlb.links hb
  rcases h with h | h | h
  · exact .append_left (Everywhere.factors h) hgs
  · exact hfs.append_right (Everywhere.factors h)
  · have hstart : Links (some t.rows) (b.factors ++ []) := hgs.append (chained_factors hb) (by simp) .nil
    rw [List.append_nil, ← h] at hstart
    exact hfs.append (chained_factors ha) (by simp) hstart

omit [Scalar α] in
theorem chain_linking (h : chain a b = .ok c) (ha : a.shape = .ok s) (hb : b.shape = .ok t) (hmeet : Meeting s t a b)
    (hla : Formed linking a) (hlb : Formed linking b) : Formed linking c :=
  .checkedProduct h (links_append ha hb hmeet hla hlb) (List.forall_mem_append.mpr ⟨hla.factors, hlb.factors⟩)

theorem prependFactor_linking {m : Monomial α} {gs : List (Expr α)} (h : prependFactor (ofMonomial m) gs = .ok c)
    (hgs : Formed linking (.product gs)) : Formed linking c := by
  rcases prependFactor_cases h with ⟨v, -, rfl⟩ | ⟨-, h⟩
  · exact .mulConstant linking_kept hgs.of_product hgs.children
  · have hm : Gridless (ofMonomial m) := Everywhere.ofMonomial fun _ _ => trivial
    exact .checkedProduct h (.number hm hgs.of_product) (List.forall_mem_cons.mpr ⟨.ofMonomial m, hgs.children⟩)

/-- The powers of monomials are numbers. -/
theorem linking_powers (m n : Monomial α) : (linking : Form α).Powers m n := by
  have hbare (k : Monomial α) : Gridless (ofMonomial k) := Everywhere.ofMonomial fun _ _ => trivial
  refine ⟨.of_gridless ?_, fun v => .of_gridless ?_⟩
  · simp [hbare]
  · exact List.forall_mem_cons.mpr ⟨.const v, by simp [hbare]⟩

/-- One multiplication, if the products of the parts link. -/
theorem mulCase_linking
    (h : MulCase (fun x y z => x.mul y = .ok z ∧ ∀ s t, Neat s x → Neat t y → Meeting s t x y → Formed linking x →
      Formed linking y → Formed linking z) a b c)
    (ha : Neat s a) (hb : Neat t b) (hmeet : Meeting s t a b) (hla : Formed linking a) (hlb : Formed linking b) :
    Formed linking c := by
  have hadd (x y z : Expr α) (hz : x.add y = .ok z) : Formed linking x → Formed linking y → Formed linking z :=
    Formed.add linking_kept hz
  cases h with
  | grids _ hcs =>
    refine .matrix (forall_mem_right hcs fun p _ y hy => hy.keeps hadd (fun q hq z hz => ?_) (.const 0))
    obtain ⟨hx, hy⟩ := List.of_mem_zip hq
    have hx := Grid.mem_cells_of_mem_row hx
    have hy := Grid.mem_cells_of_mem_transpose (Grid.mem_cells_of_mem_row hy)
    exact hz.2 _ _ (ha.of_matrix.2 _ hx) (hb.of_matrix.2 _ hy) meeting_scalars (hla.children _ hx) (hlb.children _ hy)
  | gridScalar _ hs hcs =>
    rw [hb.shape] at hs
    cases hs
    exact .cells hcs fun x hx y hy => hy.2 _ _ (ha.of_matrix.2 x hx) hb meeting_scalars (hla.children x hx) hlb
  | scalarGrid _ hs hcs =>
    rw [ha.shape] at hs
    cases hs
    exact .cells hcs fun x hx y hy => hy.2 _ _ ha (hb.of_matrix.2 x hx) meeting_scalars hla (hlb.children x hx)
  | besideGrid _ _ _ h => exact chain_linking h ha.shape hb.shape hmeet hla hlb
  | gridBeside _ _ _ h => exact chain_linking h ha.shape hb.shape hmeet hla hlb
  | number _ h => exact .scale linking_kept h hlb
  | monomialNumber => exact .ofMonomial _
  | monomials => exact .mulMonomials (linking_powers _ _)
  | monomialProduct h => exact prependFactor_linking h hlb
  | productNumber => exact .mulConstant linking_kept hla.of_product hla.children
  | product _ h => exact chain_linking (a := .product _) h ha.shape hb.shape hmeet hla hlb
  | intoRight _ hus h =>
    refine .sumOf linking_kept h (forall_mem_right hus fun y hy z hz => ?_)
    exact hz.2 s t ha.collapse (hb.of_sum y hy)
      (hmeet.of_parts (fun h => Everywhere.collapse h) fun h => Everywhere.sum_iff.mp h y hy) hla.collapse (hlb.children y hy)
  | intoLeft _ _ hus h =>
    refine .sumOf linking_kept h (forall_mem_right hus fun x hx z hz => ?_)
    exact hz.2 s t (ha.of_sum x hx) hb (hmeet.of_parts (fun h => Everywhere.sum_iff.mp h x hx) id) (hla.children x hx) hlb
  | sums hzs h =>
    have hzs := forall_mem_right hzs fun p hp z hz => by
      obtain ⟨hx, hy⟩ := List.mem_product.mp hp
      exact hz.2 s t (ha.of_sum _ hx) (hb.of_sum _ hy)
        (hmeet.of_parts (fun h => Everywhere.sum_iff.mp h _ hx) fun h => Everywhere.sum_iff.mp h _ hy)
        (hla.children _ hx) (hlb.children _ hy)
    refine .ofTerms linking_kept (foldlM_keeps (P := fun ts => ∀ t ∈ ts, Formed linking t) h (List.forall_mem_nil _) ?_)
    exact fun ts hts z hz us hus => forall_foldCross hadd hus (hzs z hz) hts

/-- Where values that meet are multiplied, all products in the result link if those in the values do. -/
theorem mul_linking (h : a.mul b = .ok c) (ha : Neat s a) (hb : Neat t b) (hmeet : Meeting s t a b)
    (hla : Formed linking a) (hlb : Formed linking b) : Formed linking c :=
  mul_induction (R := fun x y z => ∀ s t, Neat s x → Neat t y → Meeting s t x y → Formed linking x →
    Formed linking y → Formed linking z) (fun _ _ _ h _ _ => mulCase_linking h) h s t ha hb hmeet hla hlb

/-- Values that meet are multiplied, unless a zero is added to a sum of matrices on the way. -/
theorem mul_meeting (hz : HasZeros α s t) (ha : Neat s a) (hb : Neat t b) (hmeet : Meeting s t a b)
    (hadd : ¬ (Call.mul a b).AddsZero) : Succeeds (IsTimes s t) (a.mul b) := by
  refine (mul_neat hz ha hb).allow fun x hx => ?_
  rcases hx with ⟨u, -, hlost, -⟩ | ⟨hne, hga, hgb, -⟩
  · exact hadd hlost
  · rcases hmeet with h | h | h
    · exact hga h
    · exact hgb h
    · exact hne h

end

end SymbolicAlgebra.Expr
