/-
  SymbolicAlgebra.Proofs.Outcomes.Add — the ways in which an addition can come out.

  Addition branches on the kinds of both operands and on several tests. Here it is taken apart
  once: `AddCase` and `ScaleCase` list what one successful call can have done, `addTerm_cases`,
  `keep_cases` and their like what its parts can have done. `AdditiveLaws` is the induction over
  the calls: three laws, of addition, of the zero test and of scaling, that hold of one call if
  they hold of the calls it makes, hold of the operations. Laws about results go through these
  lists and never through the definitions.
-/

import SymbolicAlgebra.Proofs.Outcomes.Nodes

namespace SymbolicAlgebra

@[simp] theorem lift_eq_ok {β : Type} {x : Except ArithError β} {b : β} :
    (liftM x : Except Stop β) = .ok b ↔ x = .ok b := by
  cases x <;> simp [liftM, monadLift, MonadLift.monadLift, Except.mapError]

namespace Expr

variable {α : Type}

/-- The terms of a sum, and anything else as its own only term. -/
def terms : Expr α → List (Expr α)
  | .sum ts => ts
  | e => [e]

/-! ## One addition -/

namespace Calls

variable {call : Calls α}

/-- An offer that was taken put one node in the place of a term, or removed the term. -/
theorem offer_cases {t : Expr α} {ns : List String} {ts : List (Expr α)} {o : Offer α} (h : call.offer t ns ts = .ok o) :
    o = .apart ∨ ∃ xs x ys m, ts = xs ++ x :: ys ∧ x.freeNames = ns ∧ call.add x t = .ok m ∧
      ((m.kind = .sum ∨ call.isZero m = .ok false) ∧ (o = .merged (xs ++ m :: ys) ∨ o = .grouped (xs ++ m :: ys)) ∨
        call.isZero m = .ok true ∧ o = .merged (xs ++ ys)) := by
  induction ts generalizing o with
  | nil =>
    simp only [offer, pure_eq_ok] at h
    exact Or.inl h.symm
  | cons x xs ih =>
    -- What happened further on, seen from one term before.
    have shift : ∀ o', call.offer t ns xs = .ok o' → ∀ o'' : Offer α,
        (∀ zs, o' = .merged zs → o'' = .merged (x :: zs)) → (∀ zs, o' = .grouped zs → o'' = .grouped (x :: zs)) →
        o' = .apart ∨ ∃ us u vs m, x :: xs = us ++ u :: vs ∧ u.freeNames = ns ∧ call.add u t = .ok m ∧
          ((m.kind = .sum ∨ call.isZero m = .ok false) ∧
              (o'' = .merged (us ++ m :: vs) ∨ o'' = .grouped (us ++ m :: vs)) ∨
            call.isZero m = .ok true ∧ o'' = .merged (us ++ vs)) := by
      intro o' ho' o'' hm hg
      rcases ih ho' with rfl | ⟨us, u, vs, m, rfl, hn, ha, ⟨hz, rfl | rfl⟩ | ⟨hz, rfl⟩⟩
      · exact Or.inl rfl
      · exact Or.inr ⟨x :: us, u, vs, m, rfl, hn, ha, Or.inl ⟨hz, Or.inl (hm _ rfl)⟩⟩
      · exact Or.inr ⟨x :: us, u, vs, m, rfl, hn, ha, Or.inl ⟨hz, Or.inr (hg _ rfl)⟩⟩
      · exact Or.inr ⟨x :: us, u, vs, m, rfl, hn, ha, Or.inr ⟨hz, hm _ rfl⟩⟩
    unfold offer at h
    split at h
    · obtain ⟨o', ho', h⟩ := bind_eq_ok.mp h
      cases o' with
      | apart => exact Or.inl (pure_eq_ok.mp h).symm
      | merged zs =>
        cases pure_eq_ok.mp h
        rcases shift _ ho' (.merged (x :: zs)) (by simp) (by simp) with h | h
        · cases h
        · exact Or.inr h
      | grouped zs =>
        cases pure_eq_ok.mp h
        rcases shift _ ho' (.grouped (x :: zs)) (by simp) (by simp) with h | h
        · cases h
        · exact Or.inr h
    · rename_i hne
      have hn : x.freeNames = ns := by simpa using hne
      obtain ⟨m, hm, h⟩ := bind_eq_ok.mp h
      split at h
      · rename_i ms
        obtain ⟨o', ho', h⟩ := bind_eq_ok.mp h
        cases o' with
        | merged zs =>
          cases pure_eq_ok.mp h
          rcases shift _ ho' (.merged (x :: zs)) (by simp) (by simp) with h | h
          · cases h
          · exact Or.inr h
        | grouped zs =>
          cases pure_eq_ok.mp h
          exact Or.inr ⟨[], x, xs, .sum ms, rfl, hn, hm, Or.inl ⟨Or.inl rfl, Or.inr rfl⟩⟩
        | apart =>
          cases pure_eq_ok.mp h
          exact Or.inr ⟨[], x, xs, .sum ms, rfl, hn, hm, Or.inl ⟨Or.inl rfl, Or.inr rfl⟩⟩
      · obtain ⟨z, hz, h⟩ := bind_eq_ok.mp h
        cases z with
        | true =>
          cases pure_eq_ok.mp h
          exact Or.inr ⟨[], x, xs, m, rfl, hn, hm, Or.inr ⟨hz, rfl⟩⟩
        | false =>
          cases pure_eq_ok.mp h
          exact Or.inr ⟨[], x, xs, m, rfl, hn, hm, Or.inl ⟨Or.inr hz, Or.inl rfl⟩⟩

/-- Adding a term drops it as zero, appends it, or merges it into a term of the same names; what
    they make together is left out if it is zero. -/
theorem addTerm_cases {ts us : List (Expr α)} {t : Expr α} (h : call.addTerm ts t = .ok us) :
    (call.isZero t = .ok true ∧ us = ts) ∨ us = ts ++ [t] ∨
      ∃ xs x ys m, ts = xs ++ x :: ys ∧ x.freeNames = t.freeNames ∧ call.add x t = .ok m ∧
        ((m.kind = .sum ∨ call.isZero m = .ok false) ∧ us = xs ++ m :: ys ∨
          call.isZero m = .ok true ∧ us = xs ++ ys) := by
  unfold addTerm at h
  obtain ⟨z, hz, h⟩ := bind_eq_ok.mp h
  cases z with
  | true => exact Or.inl ⟨hz, (pure_eq_ok.mp h).symm⟩
  | false =>
    obtain ⟨o, ho, h⟩ := bind_eq_ok.mp h
    rcases offer_cases ho with rfl | ⟨xs, x, ys, m, hts, hn, ha, ⟨hm, rfl | rfl⟩ | ⟨hm, rfl⟩⟩
    · exact Or.inr (Or.inl (pure_eq_ok.mp h).symm)
    · exact Or.inr (Or.inr ⟨xs, x, ys, m, hts, hn, ha, Or.inl ⟨hm, (pure_eq_ok.mp h).symm⟩⟩)
    · exact Or.inr (Or.inr ⟨xs, x, ys, m, hts, hn, ha, Or.inl ⟨hm, (pure_eq_ok.mp h).symm⟩⟩)
    · exact Or.inr (Or.inr ⟨xs, x, ys, m, hts, hn, ha, Or.inr ⟨hm, (pure_eq_ok.mp h).symm⟩⟩)

/-- What holds of the terms, of a new one and of every sum that it makes with one of them holds of the
    terms afterwards. -/
theorem forall_addTerm {P : Expr α → Prop} (hadd : ∀ x t m, call.add x t = .ok m → P x → P t → P m)
    {ts us : List (Expr α)} {t : Expr α} (h : call.addTerm ts t = .ok us) (hts : ∀ x ∈ ts, P x) (ht : P t) :
    ∀ u ∈ us, P u := by
  rcases addTerm_cases h with ⟨-, rfl⟩ | rfl | ⟨xs, x, ys, m, rfl, -, hm, hus⟩
  · exact hts
  · exact List.forall_mem_append.mpr ⟨hts, List.forall_mem_singleton.mpr ht⟩
  · obtain ⟨hxs, hx⟩ := List.forall_mem_append.mp hts
    obtain ⟨hx, hys⟩ := List.forall_mem_cons.mp hx
    rcases hus with ⟨-, rfl⟩ | ⟨-, rfl⟩
    · exact List.forall_mem_append.mpr ⟨hxs, List.forall_mem_cons.mpr ⟨hadd x t m hm hx ht, hys⟩⟩
    · exact List.forall_mem_append.mpr ⟨hxs, hys⟩

theorem keeps_sumOf [Scalar α] {P : Expr α → Prop} (zero : P (.const 0))
    (hadd : ∀ x t m, call.add x t = .ok m → P x → P t → P m) {ts : List (Expr α)} {c : Expr α}
    (h : call.sumOf ts = .ok c) (hts : ∀ t ∈ ts, P t) : P c := by
  cases ts with
  | nil =>
    cases pure_eq_ok.mp h
    exact zero
  | cons t ts =>
    obtain ⟨ht, hts⟩ := List.forall_mem_cons.mp hts
    exact foldlM_keeps h ht fun s hs x hx s' hs' => hadd s x s' hs' hs (hts x hx)

theorem addToSum_eq_ok [Scalar α] {ts : List (Expr α)} {b c : Expr α} (h : call.addToSum ts b = .ok c) :
    ∃ s us, (Expr.sum ts).shape = .ok s ∧ b.shape = .ok s ∧ b.terms.foldlM call.addTerm ts = .ok us ∧
      c = ofTerms us := by
  unfold addToSum at h
  obtain ⟨s, hs, h⟩ := bind_eq_ok.mp h
  obtain ⟨s', hs', h⟩ := bind_eq_ok.mp h
  rw [lift_eq_ok] at hs hs'
  by_cases e : s = s'
  · subst e
    refine ⟨s, ?_⟩
    cases b <;> simp only [ne_eq, not_true_eq_false, if_false, bind_eq_ok, pure_eq_ok] at h <;>
      obtain ⟨us, hus, rfl⟩ := h <;> exact ⟨us, hs, hs', by simpa [terms] using hus, rfl⟩
  · cases b <;> simp [e] at h

/-- The ways in which one addition can come out. -/
inductive AddCase [Scalar α] (call : Calls α) : Expr α → Expr α → Expr α → Prop
  | grids {g h : Grid (Expr α)} {cells : List (Expr α)} : g.shape = h.shape →
      List.Forall₂ (fun p c => call.add p.1 p.2 = .ok c) (g.cells.zip h.cells) cells →
      AddCase call (.matrix g) (.matrix h) (.matrix ⟨g.rows, g.cols, cells⟩)
  /-- A single number goes into every cell of the grid on its left. -/
  | gridScalar {g : Grid (Expr α)} {b : Expr α} {cells : List (Expr α)} : b.kind ≠ .matrix → b.shape = .ok .scalar →
      List.Forall₂ (fun x c => call.add x b = .ok c) g.cells cells →
      AddCase call (.matrix g) b (.matrix ⟨g.rows, g.cols, cells⟩)
  | scalarGrid {a : Expr α} {h : Grid (Expr α)} {cells : List (Expr α)} : a.kind ≠ .matrix → a.shape = .ok .scalar →
      List.Forall₂ (fun x c => call.add a x = .ok c) h.cells cells →
      AddCase call a (.matrix h) (.matrix ⟨h.rows, h.cols, cells⟩)
  | zeroLeft {v : α} {b : Expr α} : b.kind ≠ .matrix → Scalar.nearZero v = true → AddCase call (.const v) b b
  | zeroRight {a b : Expr α} : a.kind ≠ .matrix → b.kind ≠ .matrix → call.isZero b = .ok true →
      AddCase call a b a.collapse
  | numbers {v w : α} : Scalar.nearZero v = false → AddCase call (.const v) (.const w) (.const (v + w))
  | monomials {m n : Monomial α} : m.isLike n = true →
      AddCase call (.var m) (.var n) (ofMonomial { m with quantity := m.quantity + n.quantity })
  /-- The terms of the right operand are added to those of the left one. -/
  | sumLeft {ts : List (Expr α)} {b c : Expr α} : b.kind ≠ .matrix → call.addToSum ts b = .ok c →
      AddCase call (.sum ts) b c
  /-- A value that is no sum is added to the terms of the right operand. -/
  | sumRight {a c : Expr α} {ts : List (Expr α)} : a.kind ≠ .matrix → a.kind ≠ .sum →
      call.addToSum ts a.collapse = .ok c → AddCase call a (.sum ts) c
  | products {fs gs : List (Expr α)} {c : Expr α} : call.addProducts fs gs = .ok c →
      AddCase call (.product fs) (.product gs) c
  | beside {a b c : Expr α} : pair a.collapse b = .ok c → AddCase call a b c

section
variable [Scalar α]

theorem addUnlike_cases {a b c : Expr α} (ha : a.kind ≠ .matrix) (hb : b.kind ≠ .matrix)
    (h : call.addUnlike a.collapse b = .ok c) : AddCase call a b c := by
  unfold addUnlike at h
  obtain ⟨z, hz, h⟩ := bind_eq_ok.mp h
  cases z with
  | true =>
    cases pure_eq_ok.mp h
    exact .zeroRight ha hb hz
  | false =>
    simp only [Bool.false_eq_true, if_false, lift_eq_ok] at h
    exact .beside h

theorem addToGrid_cases {g : Grid (Expr α)} {b c : Expr α} (hb : b.kind ≠ .matrix) (h : call.addToGrid g b = .ok c) :
    AddCase call (.matrix g) b c := by
  unfold addToGrid at h
  obtain ⟨s, hs, h⟩ := bind_eq_ok.mp h
  rw [lift_eq_ok] at hs
  split at h
  · rename_i hsc
    obtain ⟨g', hg', h⟩ := bind_eq_ok.mp h
    obtain ⟨cells, hcells, rfl⟩ := mapM_grid_eq_ok hg'
    cases pure_eq_ok.mp h
    have hs' : b.shape = .ok .scalar := by rw [hs, eq_of_beq hsc]
    exact .gridScalar hb hs' hcells
  · split at h
    · rw [lift_eq_ok] at h
      exact .beside h
    · simp at h

theorem addGridTo_cases {a : Expr α} {g : Grid (Expr α)} {c : Expr α} (ha : a.kind ≠ .matrix)
    (h : call.addGridTo a g = .ok c) : AddCase call a (.matrix g) c := by
  unfold addGridTo at h
  obtain ⟨s, hs, h⟩ := bind_eq_ok.mp h
  rw [lift_eq_ok] at hs
  split at h
  · rename_i hsc
    obtain ⟨g', hg', h⟩ := bind_eq_ok.mp h
    obtain ⟨cells, hcells, rfl⟩ := mapM_grid_eq_ok hg'
    cases pure_eq_ok.mp h
    have hs' : a.shape = .ok .scalar := by rw [hs, eq_of_beq hsc]
    exact .scalarGrid ha hs' hcells
  · rename_i hsc
    split at h
    · rw [lift_eq_ok] at h
      refine .beside ?_
      -- A monomial is a single number, so it does not come here.
      cases a with
      | var m =>
        cases hs
        exact absurd rfl hsc
      | _ => exact h
    · simp at h

theorem addStep_cases {a b c : Expr α} (h : call.addStep a b = .ok c) : AddCase call a b c := by
  unfold addStep at h
  -- Grids on both sides, on the left and on the right, then what else may stand on the left.
  split at h
  · rename_i g k
    split at h
    · rename_i hs
      obtain ⟨g', hg', h⟩ := bind_eq_ok.mp h
      obtain ⟨cells, hcells, hg'⟩ := bind_eq_ok.mp hg'
      cases pure_eq_ok.mp hg'
      cases pure_eq_ok.mp h
      exact .grids hs (mapM_eq_ok.mp hcells)
    · simp at h
  · rename_i hb
    exact addToGrid_cases (kind_ne_matrix hb) h
  · rename_i ha
    exact addGridTo_cases (kind_ne_matrix ha) h
  · rename_i v hb
    have hb : b.kind ≠ .matrix := kind_ne_matrix hb
    split at h
    · rename_i hv
      cases pure_eq_ok.mp h
      exact .zeroLeft hb hv
    · rename_i hv
      split at h
      · cases pure_eq_ok.mp h
        exact .numbers (by simpa using hv)
      · exact .sumRight (a := .const v) (by simp [kind]) (by simp [kind]) h
      · exact addUnlike_cases (a := .const v) (by simp [kind]) hb h
  · rename_i m hb
    have hb : b.kind ≠ .matrix := kind_ne_matrix hb
    split at h
    · split at h
      · rename_i hl
        cases pure_eq_ok.mp h
        exact .monomials hl
      · exact addUnlike_cases (a := .var m) (by simp [kind]) hb h
    · exact .sumRight (a := .var m) (by simp [kind]) (by simp [kind]) h
    · exact addUnlike_cases (a := .var m) (by simp [kind]) hb h
  · rename_i ts hb
    exact .sumLeft (kind_ne_matrix hb) h
  · rename_i fs hb
    have hb : b.kind ≠ .matrix := kind_ne_matrix hb
    obtain ⟨z, hz, h⟩ := bind_eq_ok.mp h
    cases z with
    | true =>
      cases pure_eq_ok.mp h
      exact .zeroRight (a := .product fs) (by simp [kind]) hb hz
    | false =>
      simp only [Bool.false_eq_true, if_false] at h
      split at h
      · exact .sumRight (a := .product fs) (by simp [kind]) (by simp [kind]) h
      · exact .products h
      · rw [lift_eq_ok] at h
        exact .beside (a := .product fs) h

/-! ## One scaling -/

/-- The ways in which one multiplication by a number can come out. -/
inductive ScaleCase (call : Calls α) (v : α) : Expr α → Expr α → Prop
  | grid {g : Grid (Expr α)} {cells : List (Expr α)} : List.Forall₂ (fun x c => call.scale v x = .ok c) g.cells cells →
      ScaleCase call v (.matrix g) (.matrix ⟨g.rows, g.cols, cells⟩)
  | zero {e : Expr α} : e.kind ≠ .matrix → Scalar.nearZero v = true → ScaleCase call v e (.const 0)
  | one {e : Expr α} : e.kind ≠ .matrix → Scalar.nearOne v = true → ScaleCase call v e e
  | minusOne {e : Expr α} : e.kind ≠ .matrix → Scalar.nearMinusOne v = true → ScaleCase call v e e.neg
  | number {w : α} : ScaleCase call v (.const w) (.const (v * w))
  | monomial {m : Monomial α} : ScaleCase call v (.var m) (ofMonomial { m with quantity := m.quantity * v })
  | sum {ts us : List (Expr α)} {c : Expr α} : List.Forall₂ (fun x c => call.scale v x = .ok c) ts us →
      call.sumOf us = .ok c → ScaleCase call v (.sum ts) c
  | product {fs : List (Expr α)} : ScaleCase call v (.product fs) (mulConstant v fs)

theorem scaleStep_cases {v : α} {e c : Expr α} (h : call.scaleStep v e = .ok c) : ScaleCase call v e c := by
  unfold scaleStep at h
  split at h
  · obtain ⟨g', hg', h⟩ := bind_eq_ok.mp h
    obtain ⟨cells, hcells, rfl⟩ := mapM_grid_eq_ok hg'
    cases pure_eq_ok.mp h
    exact .grid hcells
  · rename_i he
    have he : e.kind ≠ .matrix := kind_ne_matrix he
    split at h
    · rename_i hv
      cases pure_eq_ok.mp h
      exact .zero he hv
    · split at h
      · rename_i hv
        cases pure_eq_ok.mp h
        exact .one he hv
      · split at h
        · cases pure_eq_ok.mp h
          exact .number
        · split at h
          · rename_i hv
            cases pure_eq_ok.mp h
            exact .minusOne he hv
          · split at h
            · cases pure_eq_ok.mp h
              exact .monomial
            · obtain ⟨us, hus, h⟩ := bind_eq_ok.mp h
              exact .sum (mapM_eq_ok.mp hus) h
            · cases pure_eq_ok.mp h
              exact .product
            · cases e <;> simp_all [kind]

/-- Like products come out as their common factors with one number. -/
theorem addProducts_cases {fs gs : List (Expr α)} {c : Expr α} (h : call.addProducts fs gs = .ok c) :
    pair (.product fs) (.product gs) = .ok c ∨
      sameFactors (splitCoefficient fs).2 (splitCoefficient gs).2 = true ∧
        call.scaleFactors ((splitCoefficient fs).1 + (splitCoefficient gs).1) (splitCoefficient fs).2 = .ok c := by
  simp only [addProducts] at h
  split at h
  · rename_i hs
    exact Or.inr ⟨(Bool.and_eq_true_iff.mp hs).2, h⟩
  · rw [lift_eq_ok] at h
    exact Or.inl h

theorem scaleFactors_cases {v : α} {fs : List (Expr α)} {c : Expr α} (h : call.scaleFactors v fs = .ok c) :
    (Scalar.nearZero v = true ∧ c = .const 0) ∨ Scalar.nearZero v = false ∧
      ((fs = [] ∧ c = .const v) ∨ (∃ f, fs = [f] ∧ call.scaleFactor v f = .ok c) ∨
        2 ≤ fs.length ∧ ((Scalar.nearOne v = true ∧ c = .product fs) ∨ c = .product (.const v :: fs))) := by
  unfold scaleFactors at h
  split at h
  · rename_i hv
    exact Or.inl ⟨hv, (pure_eq_ok.mp h).symm⟩
  · rename_i hv
    refine Or.inr ⟨by simpa using hv, ?_⟩
    split at h
    · exact Or.inl ⟨rfl, (pure_eq_ok.mp h).symm⟩
    · exact Or.inr (Or.inl ⟨_, rfl, h⟩)
    · rename_i hnil hone
      have hlength : 2 ≤ fs.length := by
        match fs with
        | [] => exact absurd rfl hnil
        | [f] => exact absurd rfl (hone f)
        | _ :: _ :: _ => simp
      refine Or.inr (Or.inr ⟨hlength, ?_⟩)
      have h := (pure_eq_ok.mp h).symm
      split at h
      · rename_i hv
        exact Or.inl ⟨hv, h⟩
      · exact Or.inr h

theorem scaleFactor_cases {v : α} {f c : Expr α} (h : call.scaleFactor v f = .ok c) :
    call.scale v f = .ok c ∨ ∃ g, f = .matrix g ∧
      ((Scalar.nearOne v = true ∧ c = f) ∨ (Scalar.nearMinusOne v = true ∧ c = f.neg) ∨
        ∃ cells, List.Forall₂ (fun x c => call.scale v x = .ok c) g.cells cells ∧
          c = .matrix ⟨g.rows, g.cols, cells⟩) := by
  unfold scaleFactor at h
  split at h
  · rename_i g
    refine Or.inr ⟨g, rfl, ?_⟩
    split at h
    · rename_i hv
      exact Or.inl ⟨hv, (pure_eq_ok.mp h).symm⟩
    · split at h
      · rename_i hv
        exact Or.inr (Or.inl ⟨hv, (pure_eq_ok.mp h).symm⟩)
      · obtain ⟨g', hg', h⟩ := bind_eq_ok.mp h
        obtain ⟨cells, hcells, hg'⟩ := bind_eq_ok.mp hg'
        cases pure_eq_ok.mp hg'
        exact Or.inr (Or.inr ⟨cells, mapM_eq_ok.mp hcells, (pure_eq_ok.mp h).symm⟩)
  · exact Or.inl h

/-! ## One zero test -/

omit [Scalar α] in
theorem cancels_eq_true {x t : Expr α} (h : call.cancels x t = .ok true) :
    ∃ r, call.add x t = .ok r ∧ call.isZero r = .ok true := by
  unfold cancels at h
  split at h
  · simp at h
  · rename_i r _ hr
    exact ⟨r, hr, h⟩
  · simp at h
  · simp at h

omit [Scalar α] in
theorem cancelFirst?_cases {t : Expr α} {kept : List (Expr α)} {o : Option (List (Expr α))}
    (h : call.cancelFirst? t kept = .ok o) :
    o = none ∨ ∃ xs x ys, kept = xs ++ x :: ys ∧ call.cancels x t = .ok true ∧ o = some (xs ++ ys) := by
  induction kept generalizing o with
  | nil => exact Or.inl (pure_eq_ok.mp h).symm
  | cons x xs ih =>
    unfold cancelFirst? at h
    obtain ⟨z, hz, h⟩ := bind_eq_ok.mp h
    cases z with
    | true => exact Or.inr ⟨[], x, xs, rfl, hz, (pure_eq_ok.mp h).symm⟩
    | false =>
      obtain ⟨o', ho', h⟩ := bind_eq_ok.mp h
      rcases ih ho' with rfl | ⟨us, u, vs, rfl, hu, rfl⟩
      · exact Or.inl (pure_eq_ok.mp h).symm
      · exact Or.inr ⟨x :: us, u, vs, rfl, hu, (pure_eq_ok.mp h).symm⟩

omit [Scalar α] in
/-- A term is kept, is zero, or takes a term that it cancels with away. -/
theorem keep_cases {kept kept' : List (Expr α)} {t : Expr α} (h : call.keep kept t = .ok kept') :
    kept' = kept ++ [t] ∨ (call.isZero t = .ok true ∧ kept' = kept) ∨
      ∃ xs x ys r, kept = xs ++ x :: ys ∧ call.add x t = .ok r ∧ call.isZero r = .ok true ∧ kept' = xs ++ ys := by
  unfold keep at h
  obtain ⟨o, ho, h⟩ := bind_eq_ok.mp h
  rcases cancelFirst?_cases ho with rfl | ⟨xs, x, ys, hk, hx, rfl⟩
  · obtain ⟨z, hz, h⟩ := bind_eq_ok.mp h
    cases z with
    | true => exact Or.inr (Or.inl ⟨hz, (pure_eq_ok.mp h).symm⟩)
    | false => exact Or.inl (pure_eq_ok.mp h).symm
  · obtain ⟨r, hr, hz⟩ := cancels_eq_true hx
    exact Or.inr (Or.inr ⟨xs, x, ys, r, hk, hr, hz, (pure_eq_ok.mp h).symm⟩)

/-! ## All calls -/

/-- What three relations say about the results of the calls. -/
structure Obeys (A : Expr α → Expr α → Expr α → Prop) (Z : Expr α → Prop) (S : α → Expr α → Expr α → Prop)
    (call : Calls α) : Prop where
  add {a b c : Expr α} : call.add a b = .ok c → A a b c
  isZero {e : Expr α} : call.isZero e = .ok true → Z e
  scale {v : α} {e c : Expr α} : call.scale v e = .ok c → S v e c

/-- The calls that nest at most so deep. -/
def upTo (n : Nat) : Calls α := ⟨addWithin n, isZeroWithin n, scaleWithin n⟩

end

end Calls

theorem settle_eq_ok {β : Type} {spare : Except ArithError β} {x : Except Stop β} {b : β} (h : settle spare x = .ok b) :
    x = .ok b ∨ spare = .ok b := by
  cases x with
  | ok r =>
    cases h
    exact Or.inl rfl
  | error e =>
    cases e with
    | outOfSteps => exact Or.inr h
    | refused e => cases h

theorem keeps_sumOf [Scalar α] {P : Expr α → Prop} (zero : P (.const 0))
    (hadd : ∀ x t m : Expr α, x.add t = .ok m → P x → P t → P m) {ts : List (Expr α)} {c : Expr α}
    (h : sumOf ts = .ok c) (hts : ∀ t ∈ ts, P t) : P c := by
  cases ts with
  | nil =>
    cases pure_eq_ok.mp h
    exact zero
  | cons t ts =>
    obtain ⟨ht, hts⟩ := List.forall_mem_cons.mp hts
    exact foldlM_keeps h ht fun s hs x hx s' hs' => hadd s x s' hs' hs (hts x hx)

section
variable [Scalar α] {A : Expr α → Expr α → Expr α → Prop} {Z : Expr α → Prop} {S : α → Expr α → Expr α → Prop}

/-- Three laws that hold of a call if they hold of the calls it makes, which nest less deep, hold of
    all calls. -/
theorem Calls.obeys_upTo
    (add : ∀ {n : Nat} {a b c : Expr α}, (upTo n).Obeys A Z S → AddCase (upTo n) a b c → A a b c)
    (isZero : ∀ {n : Nat} {e : Expr α}, (upTo n).Obeys A Z S → (upTo n).isZeroStep e = .ok true → Z e)
    (scale : ∀ {n : Nat} {v : α} {e c : Expr α}, (upTo n).Obeys A Z S → ScaleCase (upTo n) v e c → S v e c) (n : Nat) :
    (upTo n).Obeys A Z S := by
  induction n with
  | zero =>
    constructor
    · intro a b c hc; cases hc
    · intro e hz; cases hz
    · intro v e c hc; cases hc
  | succ n ih =>
    constructor
    · intro a b c hc; exact add ih (addStep_cases hc)
    · intro e hz; exact isZero ih hz
    · intro v e c hc; exact scale ih (scaleStep_cases hc)

/-- Three laws that hold of a call if they hold of the calls it makes. The last two fields are for the
    results of a call that is not carried out. -/
structure AdditiveLaws (A : Expr α → Expr α → Expr α → Prop) (Z : Expr α → Prop) (S : α → Expr α → Expr α → Prop) :
    Prop where
  add {n : Nat} {a b c : Expr α} : (Calls.upTo n).Obeys A Z S → Calls.AddCase (.upTo n) a b c → A a b c
  isZero {n : Nat} {e : Expr α} : (Calls.upTo n).Obeys A Z S → (Calls.upTo n).isZeroStep e = .ok true → Z e
  scale {n : Nat} {v : α} {e c : Expr α} : (Calls.upTo n).Obeys A Z S → Calls.ScaleCase (.upTo n) v e c → S v e c
  pair {a b c : Expr α} : pair a b = .ok c → A a b c
  chain {v : α} {e c : Expr α} : chain (.const v) e = .ok c → S v e c

namespace AdditiveLaws

theorem within (h : AdditiveLaws A Z S) (n : Nat) : (Calls.upTo n).Obeys A Z S :=
  Calls.obeys_upTo h.add h.isZero h.scale n

theorem of_add (h : AdditiveLaws A Z S) {a b c : Expr α} (hc : a.add b = .ok c) : A a b c := by
  rcases settle_eq_ok hc with hc | hc
  · exact (h.within (2 * (a.weight + b.weight) + 2)).add hc
  · exact h.pair hc

theorem of_isZero (h : AdditiveLaws A Z S) {e : Expr α} (hz : e.isZero = true) : Z e := by
  unfold Expr.isZero at hz
  split at hz
  · rename_i r hr
    rw [hz] at hr
    exact (h.within (2 * e.weight + 2)).isZero hr
  · cases hz

theorem of_scale (h : AdditiveLaws A Z S) {v : α} {e c : Expr α} (hc : Expr.scale v e = .ok c) : S v e c := by
  rcases settle_eq_ok hc with hc | hc
  · exact (h.within (2 * e.weight + 2)).scale hc
  · exact h.chain hc

end AdditiveLaws

end

end Expr

end SymbolicAlgebra
