/-
  SymbolicAlgebra.Proofs.Weight — what a tree weighs.

  `Expr.weight` is made so that no rearrangement of a tree makes it heavier: the part of a tree is
  lighter than the tree (`weight_lt_sum`, `weight_le_factors`, `weight_lt_matrix`), negation changes
  nothing (`weight_neg`), and a coefficient can be taken out of a product and put back
  (`weightFactors_splitFrom`, `weight_mulConstant_le`).
-/

import SymbolicAlgebra.Proofs.Everywhere

namespace SymbolicAlgebra.Expr

variable {α : Type}

/-! ## The weight of a node -/

section
variable {e t : Expr α} {ts fs : List (Expr α)}

theorem weightFactors_cons (f : Expr α) (fs : List (Expr α)) :
    weightFactors (f :: fs) = (if f.kind = .constant then 0 else f.weight) + weightFactors fs := by
  cases f <;> simp [weightFactors, kind]

theorem weight_matrix (g : Grid (Expr α)) : (matrix g).weight = weightCells g.cells + 1 := by
  cases g
  simp [weight]

theorem weight_le_terms (h : t ∈ ts) : t.weight ≤ weightTerms ts := by
  induction ts with
  | nil => cases h
  | cons x xs ih =>
    rw [weightTerms]
    rcases List.mem_cons.mp h with rfl | h
    · omega
    · have := ih h
      omega

theorem weight_le_cells {cs : List (Expr α)} (h : t ∈ cs) : t.weight ≤ weightCells cs := by
  induction cs with
  | nil => cases h
  | cons x xs ih =>
    rw [weightCells]
    rcases List.mem_cons.mp h with rfl | h
    · omega
    · have := ih h
      omega

/-- A number has no weight as a factor, but no more than the product around it. -/
theorem weight_le_factors (h : t ∈ fs) : t.weight ≤ weightFactors fs + 1 := by
  induction fs with
  | nil => cases h
  | cons x xs ih =>
    rw [weightFactors_cons]
    rcases List.mem_cons.mp h with rfl | h
    · split
      · cases t <;> simp_all [kind, weight]
      · omega
    · have := ih h
      omega

theorem weight_pos (e : Expr α) : 0 < e.weight := by
  induction e with
  | const v => simp [weight]
  | var m => simp [weight]
  | sum ts ih =>
    rw [weight]
    cases ts with
    | nil => simp
    | cons t ts =>
      have := ih t List.mem_cons_self
      have := weight_le_terms (List.mem_cons_self (a := t) (l := ts))
      omega
  | product fs _ =>
    rw [weight]
    omega
  | matrix g _ =>
    rw [weight_matrix]
    omega

theorem weightTerms_append (ts us : List (Expr α)) : weightTerms (ts ++ us) = weightTerms ts + weightTerms us := by
  induction ts with
  | nil => simp [weightTerms]
  | cons t ts ih =>
    simp only [List.cons_append, weightTerms, ih]
    omega

/-- A term is lighter than the sum: there is another term, or the sum weighs one more. -/
theorem weight_lt_sum (h : t ∈ ts) : t.weight < (sum ts).weight := by
  have hle := weight_le_terms h
  rw [weight]
  split
  · omega
  · match ts with
    | [] => cases h
    | [x] => simp_all
    | x :: y :: zs =>
      have hx := weight_pos x
      have hy := weight_pos y
      simp only [weightTerms] at hle ⊢
      rcases List.mem_cons.mp h with rfl | h
      · omega
      · have := weight_le_terms h
        simp only [weightTerms] at this
        omega

theorem weight_lt_matrix {g : Grid (Expr α)} (h : t ∈ g.cells) : t.weight < (matrix g).weight := by
  rw [weight_matrix]
  exact Nat.lt_succ_of_le (weight_le_cells h)

theorem weightTerms_le_sum (ts : List (Expr α)) : weightTerms ts ≤ (sum ts).weight := by
  rw [weight]
  omega

theorem weightCells_le {cs : List (Expr α)} {k : Nat} (h : ∀ c ∈ cs, c.weight ≤ k) : weightCells cs ≤ k := by
  induction cs with
  | nil => simp [weightCells]
  | cons c cs ih =>
    obtain ⟨hc, hcs⟩ := List.forall_mem_cons.mp h
    rw [weightCells]
    exact max_le hc (ih hcs)

theorem weight_matrix_le {r c k : Nat} {cells : List (Expr α)} (h : ∀ x ∈ cells, x.weight < k) (hk : 0 < k) :
    (matrix ⟨r, c, cells⟩).weight ≤ k := by
  have hcells : weightCells cells ≤ k - 1 := weightCells_le fun x hx => Nat.le_sub_one_of_lt (h x hx)
  rw [weight_matrix]
  exact Nat.add_le_of_le_sub hk hcells

theorem weight_pair {a b c : Expr α} (h : pair a b = .ok c) : c.weight = a.weight + b.weight := by
  obtain ⟨left, _, h⟩ := bind_eq_ok.mp h
  obtain ⟨right, _, h⟩ := bind_eq_ok.mp h
  split at h
  · cases pure_eq_ok.mp h
    simp [weight, weightTerms]
  · simp at h

theorem weightTerms_map {f : Expr α → Expr α} (h : ∀ t ∈ ts, (f t).weight = t.weight) :
    weightTerms (ts.map f) = weightTerms ts := by
  induction ts with
  | nil => rfl
  | cons t ts ih =>
    obtain ⟨ht, hts⟩ := List.forall_mem_cons.mp h
    simp only [List.map_cons, weightTerms, ht, ih hts]

theorem weightTerms_le_of_forall₂ {us : List (Expr α)} (h : List.Forall₂ (fun t u : Expr α => u.weight ≤ t.weight) ts us) :
    weightTerms us ≤ weightTerms ts := by
  induction h with
  | nil => exact le_refl _
  | cons htu _ ih => exact Nat.add_le_add htu ih

theorem weightCells_map {f : Expr α → Expr α} {cs : List (Expr α)} (h : ∀ c ∈ cs, (f c).weight = c.weight) :
    weightCells (cs.map f) = weightCells cs := by
  induction cs with
  | nil => rfl
  | cons c cs ih =>
    obtain ⟨hc, hcs⟩ := List.forall_mem_cons.mp h
    simp only [List.map_cons, weightCells, hc, ih hcs]

end

/-! ## The weight of what is made out of a tree -/

section
variable [Scalar α]

theorem weight_ofMonomial (m : Monomial α) : (ofMonomial m).weight = 1 := by
  rcases ofMonomial_const_or_var m with ⟨v, hc⟩ | hc
  · rw [hc, weight]
  · rw [hc, weight]

theorem weight_ofTerms_le (ts : List (Expr α)) : (ofTerms ts).weight ≤ (sum ts).weight := by
  rcases ofTerms_cases ts with ⟨rfl, -⟩ | ⟨t, rfl, -⟩ | ⟨-, hc⟩
  · simp [ofTerms, weight, weightTerms]
  · exact Nat.le_of_lt (weight_lt_sum (List.mem_singleton.mpr rfl))
  · rw [hc]

theorem weight_flipSign (e : Expr α) : e.flipSign.weight = e.weight := by
  cases e <;> simp [flipSign, weight]

theorem kind_flipSign (e : Expr α) : e.flipSign.kind = e.kind := by
  cases e <;> rfl

omit [Scalar α] in
theorem weightFactors_append (fs gs : List (Expr α)) : weightFactors (fs ++ gs) = weightFactors fs + weightFactors gs := by
  induction fs with
  | nil => simp [weightFactors]
  | cons f fs ih =>
    rw [List.cons_append, weightFactors_cons, weightFactors_cons, ih, Nat.add_assoc]

theorem weightFactors_negFactors (fs : List (Expr α)) : weightFactors (negFactors fs) = weightFactors fs := by
  rcases negFactors_cases fs with ⟨xs, f, ys, rfl, -, hneg⟩ | ⟨-, hneg⟩
  · rw [hneg, weightFactors_append, weightFactors_append, weightFactors_cons, weightFactors_cons, kind_flipSign,
      weight_flipSign]
  · rw [hneg, weightFactors]

theorem weight_neg (e : Expr α) : e.neg.weight = e.weight := by
  induction e with
  | const v => rfl
  | var m => rfl
  | sum ts ih =>
    rw [neg, negAll_eq_map, weight, weight, weightTerms_map ih, List.length_map]
  | product fs _ =>
    rw [neg, weight, weight, weightFactors_negFactors]
  | matrix g ih =>
    rw [neg, negAll_eq_map, weight_matrix, weight_matrix, weightCells_map ih]

theorem weightFactors_splitFrom (v : α) (fs : List (Expr α)) : weightFactors (splitFrom v fs).2 = weightFactors fs := by
  induction fs generalizing v with
  | nil => rfl
  | cons f fs ih => cases f <;> simp [splitFrom, weightFactors_cons, kind, weight, ih]

theorem weight_ofFactors_le (fs : List (Expr α)) : (ofFactors fs).weight ≤ weightFactors fs + 2 := by
  rcases ofFactors_cases fs with ⟨-, hc⟩ | ⟨f, rfl, hc⟩ | ⟨-, hc⟩
  · simp [hc, weight]
  · rw [hc]
    exact Nat.le_succ_of_le (weight_le_factors List.mem_cons_self)
  · simp [hc, weight]

theorem weight_mulConstant_le (v : α) (fs : List (Expr α)) : (mulConstant v fs).weight ≤ weightFactors fs + 2 := by
  rcases mulConstant_cases v fs with ⟨-, hc⟩ | ⟨-, hc⟩ | ⟨w, rest, rfl, ⟨-, hc⟩ | hc⟩ | ⟨-, hc⟩
  · simp [hc, weight]
  · simp [hc, weight]
  · simpa [hc, weightFactors] using weight_ofFactors_le rest
  · simp [hc, weight, weightFactors]
  · simp [hc, weight, weightFactors]

end

end SymbolicAlgebra.Expr
