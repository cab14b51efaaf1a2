/-
  SymbolicAlgebra.Proofs.Outcomes.Mul — the ways in which a multiplication can come out.

  `MulCase` lists what a successful multiplication can have done with the products of parts of
  its operands. `mul_induction` is the induction over these parts: what holds of a product when
  it holds of the products of its parts holds of every product.
-/

import SymbolicAlgebra.Proofs.Outcomes.Add
import SymbolicAlgebra.Expr.Mul

namespace SymbolicAlgebra.Expr

variable {α : Type} [Scalar α] {R : Expr α → Expr α → Expr α → Prop}

/-- Adds the products of the pairs to a value, one after the other, but for those that are zero. -/
inductive Dot (R : Expr α → Expr α → Expr α → Prop) : List (Expr α × Expr α) → Expr α → Expr α → Prop
  | nil {c : Expr α} : Dot R [] c c
  | skip {x y c d : Expr α} {ps : List (Expr α × Expr α)} : x.isZero = true ∨ y.isZero = true → Dot R ps c d →
      Dot R ((x, y) :: ps) c d
  | add {x y z c c' d : Expr α} {ps : List (Expr α × Expr α)} : R x y z → c.add z = .ok c' → Dot R ps c' d →
      Dot R ((x, y) :: ps) c d

/-- The ways in which a multiplication can come out; `R` stands for the multiplications of parts. -/
inductive MulCase (R : Expr α → Expr α → Expr α → Prop) : Expr α → Expr α → Expr α → Prop
  | grids {g h : Grid (Expr α)} {cells : List (Expr α)} : g.cols = h.rows →
      List.Forall₂ (fun p c => Dot R ((g.row p.1).zip (h.transpose.row p.2)) (.const 0) c)
        (Shape.places ⟨g.rows, h.cols⟩) cells →
      MulCase R (.matrix g) (.matrix h) (.matrix ⟨g.rows, h.cols, cells⟩)
  | gridScalar {g : Grid (Expr α)} {b : Expr α} {cells : List (Expr α)} : b.kind ≠ .matrix → b.shape = .ok .scalar →
      List.Forall₂ (fun x c => R x b c) g.cells cells → MulCase R (.matrix g) b (.matrix ⟨g.rows, g.cols, cells⟩)
  | scalarGrid {a : Expr α} {h : Grid (Expr α)} {cells : List (Expr α)} : a.kind ≠ .matrix → a.shape = .ok .scalar →
      List.Forall₂ (fun x c => R a x c) h.cells cells → MulCase R a (.matrix h) (.matrix ⟨h.rows, h.cols, cells⟩)
  /-- A grid beside a value that is neither a grid nor a single number. -/
  | besideGrid {g : Grid (Expr α)} {b c : Expr α} {s : Shape} : b.kind ≠ .matrix → b.shape = .ok s → s ≠ .scalar →
      chain (.matrix g) b = .ok c → MulCase R (.matrix g) b c
  | gridBeside {a c : Expr α} {h : Grid (Expr α)} {s : Shape} : a.kind ≠ .matrix → a.shape = .ok s → s ≠ .scalar →
      chain a (.matrix h) = .ok c → MulCase R a (.matrix h) c
  | number {v : α} {b c : Expr α} : b.kind ≠ .matrix → scale v b = .ok c → MulCase R (.const v) b c
  | monomialNumber {m : Monomial α} {v : α} :
      MulCase R (.var m) (.const v) (ofMonomial { m with quantity := m.quantity * v })
  | monomials {m n : Monomial α} : MulCase R (.var m) (.var n) (mulMonomials m n)
  | monomialProduct {m : Monomial α} {fs : List (Expr α)} {c : Expr α} : prependFactor (ofMonomial m) fs = .ok c →
      MulCase R (.var m) (.product fs) c
  | productNumber {fs : List (Expr α)} {v : α} : MulCase R (.product fs) (.const v) (mulConstant v fs)
  | product {fs : List (Expr α)} {b c : Expr α} : (b.kind = .monomial ∨ b.kind = .product) →
      checkedProduct (fs ++ b.factors) = .ok c → MulCase R (.product fs) b c
  /-- A monomial or a product is multiplied into a sum. -/
  | intoRight {a c : Expr α} {ts us : List (Expr α)} : (a.kind = .monomial ∨ a.kind = .product) →
      List.Forall₂ (fun t u => R a.collapse t u) ts us → sumOf us = .ok c → MulCase R a (.sum ts) c
  | intoLeft {b c : Expr α} {ts us : List (Expr α)} : b.kind ≠ .matrix → b.kind ≠ .sum →
      List.Forall₂ (fun t u => R t b u) ts us → sumOf us = .ok c → MulCase R (.sum ts) b c
  | sums {ts us zs done : List (Expr α)} : List.Forall₂ (fun p z => R p.1 p.2 z) (ts ×ˢ us) zs →
      zs.foldlM (fun done z => foldCross z done) [] = .ok done → MulCase R (.sum ts) (.sum us) (ofTerms done)

/-- A term that is folded into others is zero, goes to their end, or makes one node with one of them,
    which is left out if it is zero. -/
theorem foldCross_cases {t : Expr α} {ts us : List (Expr α)} (h : foldCross t ts = .ok us) :
    (t.isZero = true ∧ us = ts) ∨ (t.isZero = false ∧ us = ts ++ [t]) ∨
      ∃ xs x ys m, ts = xs ++ x :: ys ∧ x.add t = .ok m ∧
        (m.isZero = false ∧ us = xs ++ m :: ys ∨ m.isZero = true ∧ us = xs ++ ys) := by
  induction ts generalizing us with
  | nil =>
    unfold foldCross at h
    have h := pure_eq_ok.mp h
    split at h
    · rename_i hz
      exact Or.inl ⟨hz, h.symm⟩
    · rename_i hz
      exact Or.inr (Or.inl ⟨by simpa using hz, h.symm⟩)
  | cons x xs ih =>
    unfold foldCross at h
    obtain ⟨c, hc, h⟩ := bind_eq_ok.mp h
    split at h
    · rename_i hz
      exact Or.inr (Or.inr ⟨[], x, xs, c, rfl, hc, Or.inr ⟨hz, (pure_eq_ok.mp h).symm⟩⟩)
    · rename_i hz
      split at h
      · obtain ⟨ys, hys, h⟩ := bind_eq_ok.mp h
        cases pure_eq_ok.mp h
        rcases ih hys with ⟨hz, rfl⟩ | ⟨hz, rfl⟩ | ⟨us, u, vs, m, rfl, hm, ⟨hz, rfl⟩ | ⟨hz, rfl⟩⟩
        · exact Or.inl ⟨hz, rfl⟩
        · exact Or.inr (Or.inl ⟨hz, rfl⟩)
        · exact Or.inr (Or.inr ⟨x :: us, u, vs, m, rfl, hm, Or.inl ⟨hz, rfl⟩⟩)
        · exact Or.inr (Or.inr ⟨x :: us, u, vs, m, rfl, hm, Or.inr ⟨hz, rfl⟩⟩)
      · exact Or.inr (Or.inr ⟨[], x, xs, c, rfl, hc, Or.inl ⟨by simpa using hz, (pure_eq_ok.mp h).symm⟩⟩)

theorem forall_foldCross {P : Expr α → Prop} (hadd : ∀ x t m : Expr α, x.add t = .ok m → P x → P t → P m)
    {t : Expr α} {ts us : List (Expr α)} (h : foldCross t ts = .ok us) (ht : P t) (hts : ∀ x ∈ ts, P x) :
    ∀ u ∈ us, P u := by
  rcases foldCross_cases h with ⟨-, rfl⟩ | ⟨-, rfl⟩ | ⟨xs, x, ys, m, rfl, hm, hus⟩
  · exact hts
  · exact List.forall_mem_append.mpr ⟨hts, List.forall_mem_singleton.mpr ht⟩
  · obtain ⟨hxs, hx⟩ := List.forall_mem_append.mp hts
    obtain ⟨hx, hys⟩ := List.forall_mem_cons.mp hx
    rcases hus with ⟨-, rfl⟩ | ⟨-, rfl⟩
    · exact List.forall_mem_append.mpr ⟨hxs, List.forall_mem_cons.mpr ⟨hadd x t m hm hx ht, hys⟩⟩
    · exact List.forall_mem_append.mpr ⟨hxs, hys⟩

/-- What holds of products of the pairs and of sums holds of the sum of the products. -/
theorem Dot.keeps {P : Expr α → Prop} (hadd : ∀ x t m : Expr α, x.add t = .ok m → P x → P t → P m)
    {ps : List (Expr α × Expr α)} {c d : Expr α} (h : Dot R ps c d)
    (hps : ∀ p ∈ ps, ∀ z, R p.1 p.2 z → P z) (hc : P c) : P d := by
  induction h with
  | nil => exact hc
  | skip _ _ ih => exact ih (List.forall_mem_cons.mp hps).2 hc
  | add hz hm _ ih =>
    obtain ⟨hp, hps⟩ := List.forall_mem_cons.mp hps
    exact ih hps (hadd _ _ _ hm hc (hp _ hz))

theorem Dot.mono {Q : Expr α → Expr α → Expr α → Prop} {ps : List (Expr α × Expr α)} {c d : Expr α} (h : Dot R ps c d)
    (hQ : ∀ x y z, R x y z → Q x y z) : Dot Q ps c d := by
  induction h with
  | nil => exact .nil
  | skip hz _ ih => exact .skip hz ih
  | add hz hadd _ ih => exact .add (hQ _ _ _ hz) hadd ih

theorem dot_of_foldlM {xs ys : List (Expr α)} {c d : Expr α} (ps : List ({x // x ∈ xs} × {y // y ∈ ys}))
    (hR : ∀ x ∈ xs, ∀ y ∈ ys, ∀ z, mul x y = .ok z → R x y z)
    (h : ps.foldlM (fun cell p => if p.1.1.isZero || p.2.1.isZero then return cell
      else do cell.add (← mul p.1.1 p.2.1)) c = .ok d) : Dot R (ps.map fun p => (p.1.1, p.2.1)) c d := by
  induction ps generalizing c with
  | nil =>
    cases pure_eq_ok.mp h
    exact .nil
  | cons p ps ih =>
    obtain ⟨c', hc', h⟩ := foldlM_cons_eq_ok.mp h
    split at hc'
    · rename_i hz
      cases pure_eq_ok.mp hc'
      exact .skip (Bool.or_eq_true_iff.mp hz) (ih h)
    · obtain ⟨z, hz, hc'⟩ := bind_eq_ok.mp hc'
      exact .add (hR _ p.1.2 _ p.2.2 z hz) hc' (ih h)

theorem map_zip_attach {β γ : Type} (xs : List β) (ys : List γ) :
    ((xs.attach.zip ys.attach).map fun p => (p.1.1, p.2.1)) = xs.zip ys := by
  conv_rhs => rw [← List.attach_map_subtype_val xs, ← List.attach_map_subtype_val ys, List.zip_map]
  rfl

/-- The products of a term with others, in the order in which they are folded. -/
theorem products_of_foldlM {t : Expr α} {us acc done : List (Expr α)}
    (h : us.foldlM (fun done u => do foldCross (← mul t u) done) acc = .ok done) :
    ∃ zs, List.Forall₂ (fun u z => mul t u = .ok z) us zs ∧
      zs.foldlM (fun done z => foldCross z done) acc = .ok done := by
  induction us generalizing acc with
  | nil => exact ⟨[], .nil, h⟩
  | cons u us ih =>
    obtain ⟨acc', hacc', h⟩ := foldlM_cons_eq_ok.mp h
    obtain ⟨z, hz, hacc'⟩ := bind_eq_ok.mp hacc'
    obtain ⟨zs, hzs, h⟩ := ih h
    exact ⟨z :: zs, .cons hz hzs, foldlM_cons_eq_ok.mpr ⟨acc', hacc', h⟩⟩

/-- The products that a distribution runs through. -/
theorem product_of_foldlM {ts us : List (Expr α)} {acc done : List (Expr α)}
    (h : ts.foldlM (fun done t => us.foldlM (fun done u => do foldCross (← mul t u) done) done) acc = .ok done) :
    ∃ zs, List.Forall₂ (fun p z => mul p.1 p.2 = .ok z) (ts ×ˢ us) zs ∧
      zs.foldlM (fun done z => foldCross z done) acc = .ok done := by
  induction ts generalizing acc with
  | nil => exact ⟨[], .nil, h⟩
  | cons t ts ih =>
    obtain ⟨acc', hacc', h⟩ := foldlM_cons_eq_ok.mp h
    obtain ⟨zs, hzs, hf⟩ := products_of_foldlM hacc'
    obtain ⟨ws, hws, hg⟩ := ih h
    refine ⟨zs ++ ws, ?_, ?_⟩
    · rw [List.product_cons]
      exact List.rel_append ((List.forall₂_map_left_iff).mpr hzs) hws
    · rw [List.foldlM_append]
      exact bind_eq_ok.mpr ⟨acc', hf, hg⟩

theorem mul_cases {a b c : Expr α}
    (hR : ∀ x y z : Expr α, x.size + y.size < a.size + b.size → mul x y = .ok z → R x y z)
    (h : mul a b = .ok c) : MulCase R a b c := by
  unfold mul at h
  -- Grids on both sides, on the left and on the right, then what else may stand on the left.
  split at h
  · rename_i g k
    split at h
    · rename_i hd
      obtain ⟨ds, hds, h⟩ := bind_eq_ok.mp h
      cases pure_eq_ok.mp h
      refine .grids hd (forall₂_of_mem (mapM_eq_ok.mp hds) ?_)
      rintro ⟨i, j⟩ - d hd
      rw [← map_zip_attach]
      refine dot_of_foldlM _ (fun x hx y hy z hz => hR x y z (Nat.add_lt_add ?_ ?_) hz) hd
      · exact size_cell_lt (Grid.mem_cells_of_mem_row hx)
      · exact size_cell_lt (Grid.mem_cells_of_mem_transpose (Grid.mem_cells_of_mem_row hy))
    · simp at h
  · rename_i g hb
    have hb : b.kind ≠ .matrix := kind_ne_matrix hb
    obtain ⟨s, hs, h⟩ := bind_eq_ok.mp h
    split at h
    · rename_i hsc
      obtain ⟨ds, hds, h⟩ := bind_eq_ok.mp h
      cases pure_eq_ok.mp h
      refine .gridScalar hb (by rw [hs, eq_of_beq hsc]) (forall₂_of_mem (mapM_eq_ok.mp hds) fun x hx z hz => ?_)
      exact hR x b z (Nat.add_lt_add_right (size_cell_lt hx) _) hz
    · rename_i hsc
      exact .besideGrid hb hs (fun e => hsc (by simp [e, Shape.isScalar])) h
  · rename_i k ha
    have ha : a.kind ≠ .matrix := kind_ne_matrix ha
    obtain ⟨s, hs, h⟩ := bind_eq_ok.mp h
    split at h
    · rename_i hsc
      obtain ⟨ds, hds, h⟩ := bind_eq_ok.mp h
      cases pure_eq_ok.mp h
      refine .scalarGrid ha (by rw [hs, eq_of_beq hsc]) (forall₂_of_mem (mapM_eq_ok.mp hds) fun x hx z hz => ?_)
      exact hR a x z (Nat.add_lt_add_left (size_cell_lt hx) _) hz
    · rename_i hsc
      exact .gridBeside ha hs (fun e => hsc (by simp [e, Shape.isScalar])) h
  · rename_i v hb
    exact .number (kind_ne_matrix hb) h
  · rename_i m hb
    split at h
    · cases pure_eq_ok.mp h
      exact .monomialNumber
    · cases pure_eq_ok.mp h
      exact .monomials
    · obtain ⟨us, hus, h⟩ := bind_eq_ok.mp h
      refine .intoRight (Or.inl rfl) (forall₂_of_mem (mapM_eq_ok.mp hus) fun x hx z hz => hR _ x z ?_ hz) h
      rw [collapse, size_ofMonomial, size]
      exact Nat.add_lt_add_left (size_term_lt hx) 1
    · cases b with
      | product fs => exact .monomialProduct h
      | _ => simp_all
  · rename_i ts hb
    split at h
    · rename_i us
      obtain ⟨done, hdone, h⟩ := bind_eq_ok.mp h
      cases pure_eq_ok.mp h
      obtain ⟨zs, hzs, hf⟩ := product_of_foldlM hdone
      refine .sums (forall₂_of_mem hzs fun p hp z hz => ?_) hf
      obtain ⟨ht, hu⟩ := List.mem_product.mp hp
      exact hR p.1 p.2 z (Nat.add_lt_add (size_term_lt ht) (size_term_lt hu)) hz
    · rename_i hb'
      obtain ⟨us, hus, h⟩ := bind_eq_ok.mp h
      refine .intoLeft (by cases b <;> simp_all [kind]) (by cases b <;> simp_all [kind])
        (forall₂_of_mem (mapM_eq_ok.mp hus) fun x hx z hz => ?_) h
      exact hR x b z (Nat.add_lt_add_right (size_term_lt hx) _) hz
  · rename_i fs hb
    split at h
    · cases pure_eq_ok.mp h
      exact .productNumber
    · obtain ⟨us, hus, h⟩ := bind_eq_ok.mp h
      refine .intoRight (Or.inr rfl) (forall₂_of_mem (mapM_eq_ok.mp hus) fun x hx z hz => ?_) h
      exact hR (.product fs) x z (Nat.add_lt_add_left (size_term_lt hx) _) hz
    · exact .product (by cases b <;> simp_all [kind]) h

/-- Powers of one name are one power; other monomials stand side by side without their quantities, behind
    the product of these if it is no one, unless it is zero. -/
theorem mulMonomials_cases (m n : Monomial α) :
    (m.name = n.name ∧ mulMonomials m n = ofMonomial ⟨m.name, m.quantity * n.quantity, m.exponent + n.exponent⟩) ∨
      (Scalar.nearZero (m.quantity * n.quantity) = true ∧ mulMonomials m n = .const 0) ∨
      (Scalar.nearOne (m.quantity * n.quantity) = true ∧
        mulMonomials m n = .product [ofMonomial m.bare, ofMonomial n.bare]) ∨
      mulMonomials m n = .product [.const (m.quantity * n.quantity), ofMonomial m.bare, ofMonomial n.bare] := by
  unfold mulMonomials
  split
  · rename_i hname
    exact Or.inl ⟨(eq_of_beq hname).symm, rfl⟩
  · dsimp only
    split
    · rename_i hz
      exact Or.inr (Or.inl ⟨hz, rfl⟩)
    · split
      · rename_i ho
        exact Or.inr (Or.inr (Or.inl ⟨ho, rfl⟩))
      · exact Or.inr (Or.inr (Or.inr rfl))

theorem prependFactor_cases {a c : Expr α} {fs : List (Expr α)} (h : prependFactor a fs = .ok c) :
    (∃ v, a = .const v ∧ c = mulConstant v fs) ∨ a.kind ≠ .constant ∧ checkedProduct (a :: fs) = .ok c := by
  cases a with
  | const v => exact Or.inl ⟨v, rfl, (pure_eq_ok.mp h).symm⟩
  | _ => exact Or.inr ⟨nofun, h⟩

/-- A relation that holds of every multiplication if it holds of one whose parts it holds of. -/
theorem mul_induction (step : ∀ a b c, MulCase (fun x y z => mul x y = .ok z ∧ R x y z) a b c → R a b c)
    {a b c : Expr α} (h : mul a b = .ok c) : R a b c := by
  suffices ∀ n, ∀ a b c : Expr α, a.size + b.size < n → mul a b = .ok c → R a b c from
    this _ a b c (Nat.lt_succ_self _) h
  intro n
  induction n with
  | zero => intro a b c hn; omega
  | succ n ih =>
    intro a b c hn h
    exact step a b c (mul_cases (fun x y z hs hz => ⟨hz, ih x y z (by omega) hz⟩) h)

end SymbolicAlgebra.Expr
