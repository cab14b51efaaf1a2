/-
  SymbolicAlgebra.Proofs.Outcomes.Div — the ways in which a division can come out.

  `DivCase` lists what a successful division can have done with quotients by parts of the
  divisor and of parts of the dividend, and `div_induction` is the induction over these.
-/

import SymbolicAlgebra.Proofs.Outcomes.Mul
import SymbolicAlgebra.Expr.Div

namespace SymbolicAlgebra.Expr

variable {α : Type} [Scalar α] {R : Expr α → Expr α → Expr α → Prop}

/-- Divides a value by one divisor after the other. -/
inductive Quotients (R : Expr α → Expr α → Expr α → Prop) : List (Expr α) → Expr α → Expr α → Prop
  | nil {q : Expr α} : Quotients R [] q q
  | cons {g q q' c : Expr α} {gs : List (Expr α)} : R q g q' → Quotients R gs q' c → Quotients R (g :: gs) q c

/-- The ways in which a division can come out; `R` stands for the divisions of and by parts. -/
inductive DivCase (R : Expr α → Expr α → Expr α → Prop) : Expr α → Expr α → Expr α → Prop
  | grid {g : Grid (Expr α)} {b : Expr α} {cells : List (Expr α)} : b.shape = .ok .scalar →
      List.Forall₂ (fun x c => R x b c) g.cells cells → DivCase R (.matrix g) b (.matrix ⟨g.rows, g.cols, cells⟩)
  | numbers {v w : α} : DivCase R (.const v) (.const w) (.const (v / w))
  | zeroNumber {v : α} {b : Expr α} : Scalar.nearZero v = true → DivCase R (.const v) b (.const v)
  | numberMonomial {v : α} {n r : Monomial α} : recipMonomial n = .ok r →
      DivCase R (.const v) (.var n) (ofMonomial { r with quantity := r.quantity * v })
  | monomialNumber {m : Monomial α} {w : α} :
      DivCase R (.var m) (.const w) (ofMonomial { m with quantity := m.quantity * (1 / w) })
  | monomials {m n : Monomial α} {c : Expr α} : divMonomials m n = .ok c → DivCase R (.var m) (.var n) c
  | productNumber {fs : List (Expr α)} {w : α} : DivCase R (.product fs) (.const w) (mulConstant (1 / w) fs)
  | productMonomial {fs : List (Expr α)} {n : Monomial α} {c : Expr α} : divFactors fs n = .ok c →
      DivCase R (.product fs) (.var n) c
  | byProduct {a c : Expr α} {gs : List (Expr α)} : a.kind ≠ .matrix → a.kind ≠ .sum → Quotients R gs a.collapse c →
      DivCase R a (.product gs) c
  | sum {ts us : List (Expr α)} {b c : Expr α} : b.kind ≠ .sum → List.Forall₂ (fun t u => R t b u) ts us →
      sumOf us = .ok c → DivCase R (.sum ts) b c

omit [Scalar α] in
theorem quotients_of_foldlM {f : Expr α → Expr α → Except ArithError (Expr α)} {gs : List (Expr α)} {q c : Expr α}
    (hR : ∀ q g q', g ∈ gs → f q g = .ok q' → R q g q') (h : gs.foldlM f q = .ok c) : Quotients R gs q c := by
  induction gs generalizing q with
  | nil =>
    cases pure_eq_ok.mp h
    exact .nil
  | cons g gs ih =>
    obtain ⟨q', hq', h⟩ := foldlM_cons_eq_ok.mp h
    exact .cons (hR q g q' List.mem_cons_self hq') (ih (fun q g q' hg => hR q g q' (List.mem_cons_of_mem _ hg)) h)

omit [Scalar α] in
/-- What holds of the dividend and of every quotient by one of the divisors holds of the last one. -/
theorem Quotients.keeps {P : Expr α → Prop} {gs : List (Expr α)} {q c : Expr α} (h : Quotients R gs q c) (start : P q)
    (step : ∀ g ∈ gs, ∀ q q', R q g q' → P q → P q') : P c := by
  induction h with
  | nil => exact start
  | cons hd _ ih =>
    obtain ⟨hg, hgs⟩ := List.forall_mem_cons.mp step
    exact ih (hg _ _ hd start) hgs

omit [Scalar α] in
theorem findMonomial?_eq_some {name : String} {fs : List (Expr α)} {i : Nat} {m : Monomial α}
    (h : findMonomial? name fs = some (i, m)) : m.name = name ∧ ∃ xs ys, fs = xs ++ .var m :: ys ∧ xs.length = i := by
  induction fs generalizing i with
  | nil => cases h
  | cons f fs ih =>
    have further : (findMonomial? name fs).map (fun p => (p.1 + 1, p.2)) = some (i, m) →
        m.name = name ∧ ∃ xs ys, f :: fs = xs ++ .var m :: ys ∧ xs.length = i := by
      intro h
      obtain ⟨⟨j, n⟩, hj, he⟩ := Option.map_eq_some_iff.mp h
      cases he
      obtain ⟨hn, xs, ys, rfl, hi⟩ := ih hj
      exact ⟨hn, f :: xs, ys, rfl, by simp [hi]⟩
    cases f with
    | var n =>
      unfold findMonomial? at h
      split at h
      · rename_i hn
        cases h
        exact ⟨eq_of_beq hn, [], fs, rfl, rfl⟩
      · exact further h
    | _ => exact further h

theorem recipMonomial_eq_ok {m r : Monomial α} :
    recipMonomial m = .ok r ↔ Scalar.nearZero m.quantity = false ∧ r = m.recip := by
  rw [recipMonomial, ite_throw_eq_ok, Bool.not_eq_true, pure_eq_ok, eq_comm (a := r)]

/-- A product divided by a monomial gets its reciprocal at the end, or a factor of the same name is
    divided; a number that this leaves is multiplied by the other factors. -/
theorem divFactors_cases {fs : List (Expr α)} {n : Monomial α} {c : Expr α} (h : divFactors fs n = .ok c) :
    (∃ r, recipMonomial n = .ok r ∧ checkedProduct (fs ++ [.var r]) = .ok c) ∨
      ∃ xs m ys q, fs = xs ++ .var m :: ys ∧ divMonomials m n = .ok q ∧
        ((∃ v, q = .const v ∧ (xs ++ ys).foldlM mul q = .ok c) ∨ c = .product (xs ++ q :: ys)) := by
  unfold divFactors at h
  split at h
  · obtain ⟨r, hr, h⟩ := bind_eq_ok.mp h
    exact Or.inl ⟨r, hr, h⟩
  · rename_i i m hi
    obtain ⟨-, xs, ys, rfl, rfl⟩ := findMonomial?_eq_some hi
    obtain ⟨q, hq, h⟩ := bind_eq_ok.mp h
    refine Or.inr ⟨xs, m, ys, q, rfl, hq, ?_⟩
    split at h
    · rename_i v
      rw [List.eraseIdx_append_of_length_le le_rfl, Nat.sub_self, List.eraseIdx_cons_zero] at h
      exact Or.inl ⟨v, rfl, h⟩
    · have h := pure_eq_ok.mp h
      rw [List.set_append_right _ _ le_rfl, Nat.sub_self, List.set_cons_zero] at h
      exact Or.inr h.symm

/-- A factor of the same name leaves a number or another monomial. -/
theorem divFactors_monomial {fs : List (Expr α)} {n : Monomial α} {c : Expr α} (h : divFactors fs n = .ok c) :
    (∃ r, checkedProduct (fs ++ [.var r]) = .ok c) ∨ ∃ xs m ys, fs = xs ++ .var m :: ys ∧
      ((∃ v, (xs ++ ys).foldlM mul (.const v) = .ok c) ∨ ∃ k, c = .product (xs ++ .var k :: ys)) := by
  unfold divFactors at h
  split at h
  · obtain ⟨r, -, h⟩ := bind_eq_ok.mp h
    exact Or.inl ⟨r, h⟩
  · rename_i i m hi
    obtain ⟨hname, xs, ys, rfl, rfl⟩ := findMonomial?_eq_some hi
    obtain ⟨q, hq, h⟩ := bind_eq_ok.mp h
    refine Or.inr ⟨xs, m, ys, rfl, ?_⟩
    have hq : ∃ k, q = ofMonomial k := by
      obtain ⟨r, hr, hq⟩ := bind_eq_ok.mp hq
      obtain ⟨-, rfl⟩ := recipMonomial_eq_ok.mp hr
      have hbeq : (n.recip.name == m.name) = true := by simp [Monomial.recip, hname]
      rw [mulMonomials, if_pos hbeq] at hq
      exact ⟨_, (pure_eq_ok.mp hq).symm⟩
    obtain ⟨k, rfl⟩ := hq
    rcases ofMonomial_const_or_var k with ⟨v, hv⟩ | hv
    · rw [hv] at h
      dsimp only at h
      rw [List.eraseIdx_append_of_length_le le_rfl, Nat.sub_self, List.eraseIdx_cons_zero] at h
      exact Or.inl ⟨v, h⟩
    · rw [hv] at h
      have h := pure_eq_ok.mp h
      rw [List.set_append_right _ _ le_rfl, Nat.sub_self, List.set_cons_zero] at h
      exact Or.inr ⟨k, h.symm⟩

theorem div_cases {a b c : Expr α}
    (hR : ∀ x y z : Expr α, y.size < b.size ∨ y = b ∧ x.size < a.size → div x y = .ok z → R x y z)
    (h : div a b = .ok c) : b.kind ≠ .matrix ∧ b.isZero = false ∧ DivCase R a b c := by
  have factor : ∀ gs : List (Expr α), b = .product gs → ∀ q g q', g ∈ gs → div q g = .ok q' → R q g q' := by
    rintro gs rfl q g q' hg hq
    exact hR q g q' (Or.inl (size_factor_lt hg)) hq
  unfold div at h
  split at h
  · rename_i g
    obtain ⟨s, hs, h⟩ := bind_eq_ok.mp h
    obtain ⟨hk, h⟩ := ite_throw_eq_ok.mp h
    obtain ⟨hz, h⟩ := ite_throw_eq_ok.mp h
    obtain ⟨ds, hds, h⟩ := bind_eq_ok.mp h
    cases pure_eq_ok.mp h
    simp only [Bool.or_eq_true, Bool.not_eq_true', not_or, Bool.not_eq_false] at hk
    refine ⟨fun e => hk.2 (by rw [e]; rfl), eq_false_of_ne_true hz, .grid (by rw [hs, eq_of_beq hk.1]) ?_⟩
    exact forall₂_of_mem (mapM_eq_ok.mp hds) fun x hx z hz => hR x b z (Or.inr ⟨rfl, size_cell_lt hx⟩) hz
  · simp at h
  -- From here on the divisor is neither a matrix nor zero.
  · rename_i v hb
    obtain ⟨hz, h⟩ := ite_throw_eq_ok.mp h
    refine ⟨kind_ne_matrix hb, eq_false_of_ne_true hz, ?_⟩
    split at h
    · cases pure_eq_ok.mp h
      exact .numbers
    · split at h
      · rename_i hv
        cases pure_eq_ok.mp h
        exact .zeroNumber hv
      · split at h
        · obtain ⟨r, hr, h⟩ := bind_eq_ok.mp h
          cases pure_eq_ok.mp h
          exact .numberMonomial hr
        · exact .byProduct (a := .const v) (by simp [kind]) (by simp [kind]) (quotients_of_foldlM (factor _ rfl) h)
        · simp at h
  · rename_i m hb
    obtain ⟨hz, h⟩ := ite_throw_eq_ok.mp h
    refine ⟨kind_ne_matrix hb, eq_false_of_ne_true hz, ?_⟩
    split at h
    · cases pure_eq_ok.mp h
      exact .monomialNumber
    · exact .monomials h
    · exact .byProduct (a := .var m) (by simp [kind]) (by simp [kind]) (quotients_of_foldlM (factor _ rfl) h)
    · simp at h
  · rename_i ts hb
    obtain ⟨hz, h⟩ := ite_throw_eq_ok.mp h
    refine ⟨kind_ne_matrix hb, eq_false_of_ne_true hz, ?_⟩
    split at h
    · simp at h
    · obtain ⟨us, hus, h⟩ := bind_eq_ok.mp h
      refine .sum (by cases b <;> simp_all [kind]) (forall₂_of_mem (mapM_eq_ok.mp hus) fun x hx z hz => ?_) h
      exact hR x b z (Or.inr ⟨rfl, size_term_lt hx⟩) hz
  · rename_i fs hb
    obtain ⟨hz, h⟩ := ite_throw_eq_ok.mp h
    refine ⟨kind_ne_matrix hb, eq_false_of_ne_true hz, ?_⟩
    split at h
    · cases pure_eq_ok.mp h
      exact .productNumber
    · exact .productMonomial h
    · exact .byProduct (a := .product fs) (by simp [kind]) (by simp [kind]) (quotients_of_foldlM (factor _ rfl) h)
    · simp at h

/-- A relation that holds of every division if it holds of one whose parts it holds of. -/
theorem div_induction
    (step : ∀ a b c, b.kind ≠ .matrix → b.isZero = false → DivCase (fun x y z => div x y = .ok z ∧ R x y z) a b c → R a b c)
    {a b c : Expr α} (h : div a b = .ok c) : R a b c := by
  suffices ∀ n k, ∀ a b c : Expr α, b.size < n → a.size < k → div a b = .ok c → R a b c from
    this _ _ a b c (Nat.lt_succ_self _) (Nat.lt_succ_self _) h
  -- The divisor gets smaller, or stays while the dividend gets smaller.
  intro n
  induction n with
  | zero => intro k a b c hn; omega
  | succ n ihn =>
    intro k
    induction k with
    | zero => intro a b c _ hk; omega
    | succ k ihk =>
      intro a b c hn hk h
      have parts : ∀ x y z : Expr α, y.size < b.size ∨ y = b ∧ x.size < a.size → div x y = .ok z →
          div x y = .ok z ∧ R x y z := by
        rintro x y z (hy | ⟨rfl, hx⟩) hz
        · exact ⟨hz, ihn _ x y z (by omega) (Nat.lt_succ_self _) hz⟩
        · exact ⟨hz, ihk x y z hn (by omega) hz⟩
      obtain ⟨hb, hz, hc⟩ := div_cases parts h
      exact step a b c hb hz hc

end SymbolicAlgebra.Expr
