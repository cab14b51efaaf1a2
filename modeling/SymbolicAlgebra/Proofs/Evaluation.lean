/-
  SymbolicAlgebra.Proofs.Evaluation — the number that a tree stands for.

  `Expr.eval` reads a tree as a number, given a number for every name; a grid of one cell counts as
  what is in the cell. It is a reading of all trees; what it says is meant where the tree is defined
  (`Expr.DefinedAt`): it has no larger grids, all exponents are whole, and no name that stands for
  zero has a negative one.

  Numbers are a reading in a ring (`eval_eq_value`), which gives the value of the results of the
  pieces of the operations. Only the products and the reciprocals of powers need a tree to be defined.
-/

import SymbolicAlgebra.Proofs.Values

namespace SymbolicAlgebra

namespace Monomial

variable {ρ : String → ℚ} {m n : Monomial ℚ}

/-- The value of a monomial. -/
def eval (ρ : String → ℚ) (m : Monomial ℚ) : ℚ := m.quantity * ρ m.name ^ ⌊m.exponent⌋

/-- The exponent is whole, and the name is not zero when it is negative. -/
def DefinedAt (ρ : String → ℚ) (m : Monomial ℚ) : Prop := ∃ k : ℤ, m.exponent = k ∧ (k < 0 → ρ m.name ≠ 0)

theorem eval_bare (m : Monomial ℚ) : m.quantity * m.bare.eval ρ = m.eval ρ := by simp [eval, bare]

theorem eval_quantity (q : ℚ) : eval ρ { m with quantity := q } = q * m.bare.eval ρ := by simp [eval, bare]

/-- Powers of one name add their exponents. -/
theorem zpow_add_of_definedAt (hm : m.DefinedAt ρ) (hn : n.DefinedAt ρ) (h : m.name = n.name) :
    ρ m.name ^ ⌊m.exponent + n.exponent⌋ = ρ m.name ^ ⌊m.exponent⌋ * ρ n.name ^ ⌊n.exponent⌋ := by
  obtain ⟨k, hk, hk'⟩ := hm
  obtain ⟨l, hl, hl'⟩ := hn
  rw [← h] at hl' ⊢
  rw [hk, hl, ← Int.cast_add, Int.floor_intCast, Int.floor_intCast, Int.floor_intCast]
  refine zpow_add' ?_
  by_cases h0 : ρ m.name = 0
  · have hk : 0 ≤ k := not_lt.mp fun hlt => hk' hlt h0
    have hl : 0 ≤ l := not_lt.mp fun hlt => hl' hlt h0
    omega
  · exact Or.inl h0

end Monomial

namespace Expr

mutual

/-- The value of a tree whose grids have one cell. -/
def eval (ρ : String → ℚ) : Expr ℚ → ℚ
  | .const v => v
  | .var m => m.eval ρ
  | .sum ts => evalSum ρ ts
  | .product fs => evalProduct ρ fs
  | .matrix ⟨_, _, cells⟩ => evalCell ρ cells

def evalSum (ρ : String → ℚ) : List (Expr ℚ) → ℚ
  | [] => 0
  | t :: ts => eval ρ t + evalSum ρ ts

def evalProduct (ρ : String → ℚ) : List (Expr ℚ) → ℚ
  | [] => 1
  | f :: fs => eval ρ f * evalProduct ρ fs

def evalCell (ρ : String → ℚ) : List (Expr ℚ) → ℚ
  | [] => 0
  | c :: _ => eval ρ c

end

/-- A grid of the tree has one cell, and its monomials are defined where names have these values. -/
def assigned (ρ : String → ℚ) : Condition ℚ := ⟨Monomial.DefinedAt ρ, fun r c k => r = 1 ∧ c = 1 ∧ k = 1⟩

/-- The tree stands for a number where names have these values. -/
def DefinedAt (ρ : String → ℚ) (e : Expr ℚ) : Prop := Everywhere (assigned ρ) e

/-- The tree stands for the number `v` where names have these values. -/
def Denotes (ρ : String → ℚ) (e : Expr ℚ) (v : ℚ) : Prop := DefinedAt ρ e ∧ eval ρ e = v

variable {ρ : String → ℚ}

theorem assigned_kept (ρ : String → ℚ) : (assigned ρ).Kept where
  neg h := h
  bare h := h
  quantity _ h := h
  power := by
    rintro m n q - - hname ⟨k, hk, hk'⟩ ⟨l, hl, hl'⟩
    refine ⟨k + l, by simp [hk, hl], fun h => ?_⟩
    rcases (by omega : k < 0 ∨ l < 0) with h | h
    · exact hk' h
    · exact hname ▸ hl' h
  zip := by
    rintro r c k k' ⟨hr, hc, rfl⟩ ⟨-, -, rfl⟩
    exact ⟨hr, hc, rfl⟩
  mul := by
    rintro r n c k k' ⟨rfl, -, -⟩ ⟨-, rfl, -⟩
    exact ⟨rfl, rfl, rfl⟩

namespace DefinedAt

/-- A grid that stands for a number has one cell, which does. -/
theorem cell {g : Grid (Expr ℚ)} (h : DefinedAt ρ (.matrix g)) : ∃ c, g = ⟨1, 1, [c]⟩ ∧ DefinedAt ρ c := by
  obtain ⟨r, c, cells⟩ := g
  obtain ⟨⟨hr, hc, hk⟩, hcells⟩ := Everywhere.matrix_iff.mp h
  obtain ⟨x, hx⟩ := List.length_eq_one_iff.mp hk
  simp only at hr hc hx
  subst hr hc hx
  exact ⟨x, rfl, hcells x (List.mem_singleton.mpr rfl)⟩

theorem terms {ts : List (Expr ℚ)} (h : DefinedAt ρ (.sum ts)) : ∀ t ∈ ts, DefinedAt ρ t := Everywhere.sum_iff.mp h

theorem factors {fs : List (Expr ℚ)} (h : DefinedAt ρ (.product fs)) : ∀ f ∈ fs, DefinedAt ρ f :=
  Everywhere.product_iff.mp h

end DefinedAt

/-! ## Numbers as a reading in a ring -/

@[simp] theorem eval_const (v : ℚ) : eval ρ (.const v) = v := by rw [eval]

@[simp] theorem eval_var (m : Monomial ℚ) : eval ρ (.var m) = m.eval ρ := by rw [eval]

@[simp] theorem eval_sum (ts : List (Expr ℚ)) : eval ρ (.sum ts) = (ts.map (eval ρ)).sum := by
  rw [eval]
  induction ts with
  | nil => rfl
  | cons t ts ih => rw [evalSum, ih, List.map_cons, List.sum_cons]

@[simp] theorem eval_product (fs : List (Expr ℚ)) : eval ρ (.product fs) = (fs.map (eval ρ)).prod := by
  rw [eval]
  induction fs with
  | nil => rfl
  | cons f fs ih => rw [evalProduct, ih, List.map_cons, List.prod_cons]

@[simp] theorem eval_cell (c : Expr ℚ) : eval ρ (.matrix ⟨1, 1, [c]⟩) = eval ρ c := by rw [eval, evalCell]

/-- Names stand for numbers, and so do grids of one cell. -/
def numbers (ρ : String → ℚ) : Interpretation ℚ where
  power n k := ρ n ^ k
  grid g := eval ρ (.matrix g)
  power_zero _ := zpow_zero _

theorem eval_eq_value : eval ρ = (numbers ρ).value := by
  funext e
  induction e with
  | const v => simp
  | var m => rw [eval_var, (numbers ρ).value_var]; rfl
  | sum ts ih => rw [eval_sum, (numbers ρ).value_sum, List.map_congr_left ih]
  | product fs ih => rw [eval_product, (numbers ρ).value_product, List.map_congr_left ih]
  | matrix g => rw [(numbers ρ).value_matrix]; rfl

@[simp] theorem eval_ofTerms (ts : List (Expr ℚ)) : eval ρ (ofTerms ts) = (ts.map (eval ρ)).sum := by
  rw [eval_eq_value, Interpretation.value_ofTerms]

@[simp] theorem eval_ofMonomial (m : Monomial ℚ) : eval ρ (ofMonomial m) = m.eval ρ := by
  rw [eval_eq_value, Interpretation.value_ofMonomial]
  rfl

@[simp] theorem eval_collapse (e : Expr ℚ) : eval ρ e.collapse = eval ρ e := by
  rw [eval_eq_value, Interpretation.value_collapse]

theorem eval_factors (e : Expr ℚ) : (e.factors.map (eval ρ)).prod = eval ρ e := by
  rw [eval_eq_value, Interpretation.value_factors]

theorem eval_mulConstant (v : ℚ) (fs : List (Expr ℚ)) : eval ρ (mulConstant v fs) = v * (fs.map (eval ρ)).prod := by
  rw [eval_eq_value, Interpretation.value_mulConstant, smul_eq_mul]

theorem eval_splitCoefficient (fs : List (Expr ℚ)) :
    (splitCoefficient fs).1 * ((splitCoefficient fs).2.map (eval ρ)).prod = (fs.map (eval ρ)).prod := by
  rw [eval_eq_value, ← smul_eq_mul, Interpretation.value_splitCoefficient]

theorem eval_sameFactors {fs gs : List (Expr ℚ)} (h : sameFactors fs gs = true) :
    (fs.map (eval ρ)).prod = (gs.map (eval ρ)).prod := by
  rw [eval_eq_value, Interpretation.value_sameFactors _ h fun _ _ _ _ _ _ => Commute.all _ _]

@[simp] theorem eval_neg (e : Expr ℚ) : eval ρ e.neg = -eval ρ e := by
  rw [eval_eq_value]
  refine Interpretation.value_neg _ (fun g hg => ?_) e
  obtain ⟨r, c, cells⟩ := g
  show eval ρ (.matrix ⟨r, c, cells.map neg⟩) = -eval ρ (.matrix ⟨r, c, cells⟩)
  rw [eval, eval]
  cases cells with
  | nil => exact neg_zero.symm
  | cons c cs =>
    rw [List.map_cons, evalCell, evalCell, eval_eq_value]
    exact hg c List.mem_cons_self

end Expr

end SymbolicAlgebra
