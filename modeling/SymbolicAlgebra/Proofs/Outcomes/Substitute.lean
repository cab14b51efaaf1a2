/-
  SymbolicAlgebra.Proofs.Outcomes.Substitute — the ways in which a substitution and a tidying can
  come out, node by node.
-/

import SymbolicAlgebra.Proofs.Sequence
import SymbolicAlgebra.Expr.Normalize
import SymbolicAlgebra.Expr.Substitute

namespace SymbolicAlgebra.Expr

variable {α : Type} [Scalar α]

/-! ## Substitution -/

theorem mulTimes_eq_foldlM (v : Expr α) (n : Nat) (e : Expr α) : mulTimes v n e = (List.replicate n v).foldlM mul e := by
  induction n generalizing e with
  | zero => rfl
  | succ n ih =>
    rw [mulTimes, List.replicate_succ, List.foldlM_cons]
    exact congrArg _ (funext ih)

theorem expand_eq_ok {m : Monomial α} {v c : Expr α} (h : expand m v = .ok c) :
    Scalar.near (Scalar.round m.exponent) m.exponent = true ∧
      (Scalar.magnitude (Scalar.round m.exponent) = 0 ∧ c = .const m.quantity ∨
        ∃ n p q, Scalar.magnitude (Scalar.round m.exponent) = n + 1 ∧ mulTimes v n v = .ok p ∧
          (Scalar.isNegative (Scalar.round m.exponent) = false ∧ q = p ∨
            Scalar.isNegative (Scalar.round m.exponent) = true ∧ div (.const 1) p = .ok q) ∧
          (Scalar.nearOne m.quantity = true ∧ c = q ∨ mul (.const m.quantity) q = .ok c)) := by
  unfold expand at h
  dsimp only at h
  split at h
  · simp at h
  · rename_i hn
    refine ⟨by simpa using hn, ?_⟩
    split at h
    · rename_i hm
      exact Or.inl ⟨hm, (pure_eq_ok.mp h).symm⟩
    · rename_i n hm
      refine Or.inr ?_
      obtain ⟨p, hp, h⟩ := bind_eq_ok.mp h
      -- The quantity goes in front at the end, unless it is one.
      have last : ∀ q, (if Scalar.nearOne m.quantity = true then pure q else mul (.const m.quantity) q) = .ok c →
          (Scalar.nearOne m.quantity = true ∧ c = q) ∨ mul (.const m.quantity) q = .ok c := by
        intro q h
        split at h
        · rename_i hq
          exact Or.inl ⟨hq, (pure_eq_ok.mp h).symm⟩
        · exact Or.inr h
      split at h
      · rename_i hs
        obtain ⟨q, hq, h⟩ := bind_eq_ok.mp h
        exact ⟨n, p, q, hm, hp, Or.inr ⟨hs, hq⟩, last q h⟩
      · rename_i hs
        exact ⟨n, p, p, hm, hp, Or.inl ⟨by simpa using hs, rfl⟩, last p h⟩

theorem substituteAll_eq_ok {es fs : List (Expr α)} {name : String} {v : Expr α} :
    substituteAll es name v = .ok fs ↔ List.Forall₂ (fun e f => substitute e name v = .ok f) es fs := by
  induction es generalizing fs with
  | nil =>
    simp only [substituteAll, pure_eq_ok, List.forall₂_nil_left_iff]
    exact eq_comm
  | cons e es ih =>
    simp only [substituteAll, bind_eq_ok, pure_eq_ok, ih]
    constructor
    · rintro ⟨f, hf, fs, hfs, rfl⟩
      exact .cons hf hfs
    · rintro (_ | ⟨hf, hfs⟩)
      exact ⟨_, hf, _, hfs, rfl⟩

section
variable {name : String} {v c : Expr α}

@[simp] theorem substitute_const {w : α} : substitute (.const w) name v = .ok c ↔ .const w = c := by
  simp [substitute]

theorem substitute_var {m : Monomial α} (h : substitute (.var m) name v = .ok c) :
    m.name = name ∧ expand m v = .ok c ∨ m.name ≠ name ∧ c = .var m := by
  unfold substitute at h
  split at h
  · rename_i hn
    exact Or.inl ⟨eq_of_beq hn, h⟩
  · rename_i hn
    exact Or.inr ⟨by simpa using hn, (pure_eq_ok.mp h).symm⟩

theorem substitute_sum {ts : List (Expr α)} : substitute (.sum ts) name v = .ok c ↔
    ∃ us, List.Forall₂ (fun e f => substitute e name v = .ok f) ts us ∧ .sum us = c := by
  simp only [substitute, bind_eq_ok, pure_eq_ok, substituteAll_eq_ok]

theorem substitute_product {fs : List (Expr α)} : substitute (.product fs) name v = .ok c ↔
    ∃ gs, List.Forall₂ (fun e f => substitute e name v = .ok f) fs gs ∧ .product gs = c := by
  simp only [substitute, bind_eq_ok, pure_eq_ok, substituteAll_eq_ok]

theorem substitute_matrix {g : Grid (Expr α)} : substitute (.matrix g) name v = .ok c ↔
    ∃ cells, List.Forall₂ (fun e f => substitute e name v = .ok f) g.cells cells ∧ .matrix ⟨g.rows, g.cols, cells⟩ = c := by
  simp only [substitute, bind_eq_ok, pure_eq_ok, substituteAll_eq_ok]

end

/-! ## Tidying -/

theorem recombine_eq_ok {fs : List (Expr α)} {c : Expr α} (h : recombine fs = .ok c) :
    (Scalar.nearZero (splitCoefficient fs).1 = true ∧ c = .const 0) ∨
      ((splitCoefficient fs).2 = [] ∧ c = .const (splitCoefficient fs).1) ∨
      ∃ first more p, (splitCoefficient fs).2 = first :: more ∧ more.foldlM mul first = .ok p ∧
        mul (.const (splitCoefficient fs).1) p = .ok c := by
  simp only [recombine] at h
  split at h
  · rename_i hz
    exact Or.inl ⟨hz, (pure_eq_ok.mp h).symm⟩
  · split at h
    · rename_i hr
      exact Or.inr (Or.inl ⟨hr, (pure_eq_ok.mp h).symm⟩)
    · rename_i first more hr
      obtain ⟨p, hp, h⟩ := bind_eq_ok.mp h
      exact Or.inr (Or.inr ⟨first, more, p, hr, hp, h⟩)

omit [Scalar α] in
/-- What holds of the factors of all tidied factors. -/
theorem forall_mem_spliced {P : Expr α → Prop} {Q : Expr α → Expr α → Prop} {fs hs : List (Expr α)}
    (h : List.Forall₂ Q fs hs) (hQ : ∀ f ∈ fs, ∀ c, Q f c → ∀ g ∈ c.factors, P g) : ∀ g ∈ hs.flatMap factors, P g := by
  intro g hg
  obtain ⟨c, hc, hg⟩ := List.mem_flatMap.mp hg
  exact forall_mem_right (Q := fun c => ∀ g ∈ c.factors, P g) h hQ c hc g hg

theorem normalizeFactors_eq_ok {fs gs : List (Expr α)} : normalizeFactors fs = .ok gs ↔
    ∃ hs, List.Forall₂ (fun f h => normalize f = .ok h) fs hs ∧ gs = hs.flatMap factors := by
  induction fs generalizing gs with
  | nil =>
    simp only [normalizeFactors, pure_eq_ok, List.forall₂_nil_left_iff, exists_eq_left, List.flatMap_nil]
    exact eq_comm
  | cons f fs ih =>
    simp only [normalizeFactors, bind_eq_ok, pure_eq_ok, ih]
    constructor
    · rintro ⟨h, hh, gs, ⟨hs, hhs, rfl⟩, rfl⟩
      exact ⟨h :: hs, .cons hh hhs, rfl⟩
    · rintro ⟨_, (_ | ⟨hh, hhs⟩), rfl⟩
      exact ⟨_, hh, _, ⟨_, hhs, rfl⟩, rfl⟩

theorem normalizeCells_eq_ok {es fs : List (Expr α)} :
    normalizeCells es = .ok fs ↔ List.Forall₂ (fun e f => normalize e = .ok f) es fs := by
  induction es generalizing fs with
  | nil =>
    simp only [normalizeCells, pure_eq_ok, List.forall₂_nil_left_iff]
    exact eq_comm
  | cons e es ih =>
    simp only [normalizeCells, bind_eq_ok, pure_eq_ok, ih]
    constructor
    · rintro ⟨f, hf, fs, hfs, rfl⟩
      exact .cons hf hfs
    · rintro (_ | ⟨hf, hfs⟩)
      exact ⟨_, hf, _, hfs, rfl⟩

section
variable {c : Expr α}

@[simp] theorem normalize_const {v : α} : normalize (.const v) = .ok c ↔ .const v = c := by
  simp [normalize]

@[simp] theorem normalize_var {m : Monomial α} : normalize (.var m) = .ok c ↔ ofMonomial m = c := by
  simp [normalize]

@[simp] theorem normalize_sum {ts : List (Expr α)} : normalize (.sum ts) = .ok c ↔ .sum ts = c := by
  simp [normalize]

theorem normalize_product {fs : List (Expr α)} : normalize (.product fs) = .ok c ↔
    ∃ hs, List.Forall₂ (fun f h => normalize f = .ok h) fs hs ∧ recombine (hs.flatMap factors) = .ok c := by
  simp only [normalize, bind_eq_ok, normalizeFactors_eq_ok]
  constructor
  · rintro ⟨_, ⟨hs, hhs, rfl⟩, h⟩
    exact ⟨hs, hhs, h⟩
  · rintro ⟨hs, hhs, h⟩
    exact ⟨_, ⟨hs, hhs, rfl⟩, h⟩

theorem normalize_matrix {g : Grid (Expr α)} : normalize (.matrix g) = .ok c ↔
    ∃ cells, List.Forall₂ (fun e f => normalize e = .ok f) g.cells cells ∧ .matrix ⟨g.rows, g.cols, cells⟩ = c := by
  simp only [normalize, bind_eq_ok, pure_eq_ok, normalizeCells_eq_ok]

end

end SymbolicAlgebra.Expr
