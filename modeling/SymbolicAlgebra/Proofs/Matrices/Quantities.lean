/-
  SymbolicAlgebra.Proofs.Matrices.Quantities — what an expression that mentions a matrix comes to.

  An expression in which one name stands for a matrix and the others for numbers is computed from its
  text by the rules of matrices (`ParseTree.quantity?`): numbers are added to numbers and matrices to
  matrices of the same shape, and a quotient is one by a number. Written without matrices it is read as
  a tree in which the name stands for the matrix, and with the matrix in the place of the name
  (`ParseTree.inline`) as one with grids. Either tree stands for the quantity that the text comes to
  (`inline_represents`), as does what substitution and tidying make of it.
-/

import SymbolicAlgebra.Proofs.Solutions
import SymbolicAlgebra.Proofs.Matrices.Meaning
import SymbolicAlgebra.Proofs.Matrices.Substitution

namespace SymbolicAlgebra

/-- A number or a matrix of numbers. -/
inductive Quantity where
  | number (v : ℚ)
  | matrix (g : Grid ℚ)

def Quantity.neg : Quantity → Quantity
  | number v => .number (-v)
  | matrix g => .matrix (g.map (-1 * ·))

/-- The operation on numbers and matrices. -/
def Operator.quantity? : Operator → Quantity → Quantity → Option Quantity
  | op, .number v, .number w => (op.compute? v w).map .number
  | add, .matrix g, .matrix h => (g.add? h).map .matrix
  | sub, .matrix g, .matrix h => (g.add? (h.map (-1 * ·))).map .matrix
  | mul, .number v, .matrix h => some (.matrix (h.map (v * ·)))
  | mul, .matrix g, .number w => some (.matrix (g.map (w * ·)))
  | mul, .matrix g, .matrix h => if g.cols = h.rows then some (.matrix (g.dot h)) else none
  | div, .matrix g, .number w => if w = 0 then none else some (.matrix (g.map (w⁻¹ * ·)))
  | _, _, _ => none

namespace ParseTree

/-- What a tree without matrices comes to, where `name` stands for the matrix `M`, and the names that
    have a number stand for that. -/
def quantity? (ν : String → Option ℚ) (name : String) (M : Grid ℚ) : ParseTree → Option Quantity
  | .number s => (Scalar.ofText? (String.ofList (s.toList.filter (· != '_')))).map .number
  | .name n => if n = name then some (.matrix M) else (ν n).map .number
  | .paren e => e.quantity? ν name M
  | .matrix _ => none
  | .transpose _ => none
  | .neg e => (e.quantity? ν name M).map Quantity.neg
  | .binary op l r => (l.quantity? ν name M).bind fun x => (r.quantity? ν name M).bind fun y => op.quantity? x y
  | .juxtapose l r => (l.quantity? ν name M).bind fun x => (r.quantity? ν name M).bind fun y => Operator.mul.quantity? x y

mutual

/-- The tree with another one in the place of a name. -/
def inline (t : ParseTree) (name : String) (leaf : ParseTree) : ParseTree :=
  match t with
  | .number s => .number s
  | .name n => if n = name then leaf else .name n
  | .paren e => .paren (inline e name leaf)
  | .matrix rows => .matrix (inlineRows rows name leaf)
  | .transpose e => .transpose (inline e name leaf)
  | .neg e => .neg (inline e name leaf)
  | .binary op l r => .binary op (inline l name leaf) (inline r name leaf)
  | .juxtapose l r => .juxtapose (inline l name leaf) (inline r name leaf)

def inlineRow (ts : List ParseTree) (name : String) (leaf : ParseTree) : List ParseTree :=
  match ts with
  | [] => []
  | t :: ts => inline t name leaf :: inlineRow ts name leaf

def inlineRows (rs : List (List ParseTree)) (name : String) (leaf : ParseTree) : List (List ParseTree) :=
  match rs with
  | [] => []
  | r :: rs => inlineRow r name leaf :: inlineRows rs name leaf

end

mutual

theorem inline_name (name : String) : ∀ t : ParseTree, t.inline name (.name name) = t
  | .number s => by rw [inline]
  | .name n => by
    rw [inline]
    split
    · rename_i h
      rw [h]
    · rfl
  | .paren e => by rw [inline, inline_name name e]
  | .matrix rows => by rw [inline, inlineRows_name name rows]
  | .transpose e => by rw [inline, inline_name name e]
  | .neg e => by rw [inline, inline_name name e]
  | .binary op l r => by rw [inline, inline_name name l, inline_name name r]
  | .juxtapose l r => by rw [inline, inline_name name l, inline_name name r]

theorem inlineRow_name (name : String) : ∀ ts : List ParseTree, inlineRow ts name (.name name) = ts
  | [] => by rw [inlineRow]
  | t :: ts => by rw [inlineRow, inline_name name t, inlineRow_name name ts]

theorem inlineRows_name (name : String) : ∀ rs : List (List ParseTree), inlineRows rs name (.name name) = rs
  | [] => by rw [inlineRows]
  | r :: rs => by rw [inlineRows, inlineRow_name name r, inlineRows_name name rs]

end

/-- What holds of numbers, of names and of what is put in for `name`, and what negation and the
    operators keep, holds of the value that is read and the quantity that the text comes to. -/
theorem inline_induction {Q : Expr ℚ → Quantity → Prop} {ν : String → Option ℚ} {name : String} {M : Grid ℚ}
    {leaf : ParseTree} (const : ∀ v, Q (.const v) (.number v))
    (ofName : ∀ n v, n ≠ name → ν n = some v → Q (.ofName n) (.number v))
    (put : ∀ e, leaf.expr? = some e → Q e (.matrix M)) (neg : ∀ e x, Q e x → Q e.neg x.neg)
    (apply : ∀ (op : Operator) a b c x y z, Q a x → Q b y → op.apply a b = .ok c → op.quantity? x y = some z → Q c z)
    {t : ParseTree} {e : Expr ℚ} {x : Quantity} (he : (t.inline name leaf).expr? = some e)
    (hx : t.quantity? ν name M = some x) : Q e x := by
  -- The recursion of `quantity?`, which has nothing for matrices and for transposes.
  fun_induction ParseTree.quantity? ν name M t generalizing e x with
  | case1 s =>
    obtain ⟨v, hv, rfl⟩ := Option.map_eq_some_iff.mp hx
    rw [inline, expr?, hv] at he
    cases he
    exact const v
  | case2 =>
    cases hx
    rw [inline, if_pos rfl] at he
    exact put e he
  | case3 n hn =>
    obtain ⟨v, hv, rfl⟩ := Option.map_eq_some_iff.mp hx
    rw [inline, if_neg hn, expr?] at he
    cases he
    exact ofName n v hn hv
  | case4 t ih =>
    rw [inline, expr?] at he
    exact ih he hx
  | case5 => cases hx
  | case6 => cases hx
  | case7 t ih =>
    obtain ⟨y, hy, rfl⟩ := Option.map_eq_some_iff.mp hx
    rw [inline, expr?] at he
    obtain ⟨a, ha, he⟩ := Option.bind_eq_some_iff.mp he
    cases he
    exact neg a y (ih ha hy)
  | case8 op l r ihl ihr =>
    obtain ⟨y, hy, hx⟩ := Option.bind_eq_some_iff.mp hx
    obtain ⟨z, hz, hx⟩ := Option.bind_eq_some_iff.mp hx
    rw [inline, expr?] at he
    obtain ⟨a, b, ha, hb, he⟩ := Operator.combined_eq_some.mp he
    exact apply op a b e y z x (ihl ha hy) (ihr hb hz) he hx
  | case9 l r ihl ihr =>
    obtain ⟨y, hy, hx⟩ := Option.bind_eq_some_iff.mp hx
    obtain ⟨z, hz, hx⟩ := Option.bind_eq_some_iff.mp hx
    rw [inline, expr?] at he
    obtain ⟨a, b, ha, hb, he⟩ := Operator.combined_eq_some.mp he
    exact apply .mul a b e y z x (ihl ha hy) (ihr hb hz) he hx

end ParseTree

/-! ## Trees that stand for quantities -/

namespace Expr

variable {o : Option String} {s : Shape} {ρ : String → ℚ} {N : Nat} {X : Matrix (Fin N) (Fin N) ℚ} {a b c e v : Expr ℚ}
  {x y z : Quantity} {name : String}

/-- The tree is a number of that value, or a matrix that is read as that matrix. -/
def Stands (o : Option String) (s : Shape) (ρ : String → ℚ) (X : Matrix (Fin N) (Fin N) ℚ) (e : Expr ℚ) : Quantity → Prop
  | .number v => AsNumber o s ρ e ∧ eval ρ e = v
  | .matrix g => AsMatrix o s ρ e ∧ g.shape = s ∧ g.Filled ∧ (matrices o ρ X).value e = g.padded N

theorem Stands.neg (h : Stands o s ρ X e x) : Stands o s ρ X e.neg x.neg := by
  cases x with
  | number v =>
    obtain ⟨hn, rfl⟩ := h
    obtain ⟨hd, he⟩ := neg_denotes hn.2
    exact ⟨⟨Everywhere.neg (plain_kept o s) hn.1, hd⟩, he⟩
  | matrix g =>
    obtain ⟨hm, hs, hf, hv⟩ := h
    exact ⟨hm.neg, hs, hf.map _, by rw [value_neg, hv, Grid.padded_map, neg_one_smul]⟩

theorem Stands.add (hN : s.Fits N) (h : a.add b = .ok c) {g k l : Grid ℚ} (ha : Stands o s ρ X a (.matrix g))
    (hb : Stands o s ρ X b (.matrix k)) (hl : g.add? k = some l) : Stands o s ρ X c (.matrix l) := by
  obtain ⟨ha, hsg, hfg, hvg⟩ := ha
  obtain ⟨hb, hsk, hfk, hvk⟩ := hb
  have hs : g.shape = k.shape := hsg.trans hsk.symm
  rw [Grid.add?, if_pos hs] at hl
  cases hl
  obtain ⟨hc, hv⟩ := add_matrices (M := X) hN h ha hb
  exact ⟨hc, hsg, Grid.filled_zip hs hfg hfk, by rw [hv, Grid.padded_zip hs hfg hfk, hvg, hvk]⟩

theorem Stands.mul (hN : s.Fits N) (h : a.mul b = .ok c) {g k : Grid ℚ} (ha : Stands o s ρ X a (.matrix g))
    (hb : Stands o s ρ X b (.matrix k)) : Stands o s ρ X c (.matrix (g.dot k)) := by
  obtain ⟨ha, hsg, hfg, hvg⟩ := ha
  obtain ⟨hb, hsk, hfk, hvk⟩ := hb
  obtain ⟨hc, hv⟩ := mul_matrices (M := X) hN h ha.asSorted hb.asSorted (Or.inl ha.1)
  exact ⟨hc, Grid.shape_dot hsg hsk, Grid.filled_dot g k, by rw [hv, hvg, hvk, Grid.padded_dot (hN.cols_le hsg)]⟩

theorem Everywhere.apply {P : Condition ℚ} (hP : P.Kept) (hr : P.Reciprocal) {op : Operator} (h : op.apply a b = .ok c)
    (ha : Everywhere P a) (hb : Everywhere P b) : Everywhere P c := by
  cases op with
  | add => exact .add hP h ha hb
  | sub => exact .sub hP h ha hb
  | mul => exact .mul hP h ha hb
  | div => exact .div hP hr h ha hb

theorem Stands.asSorted (h : Stands o s ρ X e x) : AsSorted o s ρ e := by
  cases x with
  | number v => exact h.1.asSorted
  | matrix g => exact h.1.asSorted

theorem Stands.apply (hN : s.Fits N) {op : Operator} (h : op.apply a b = .ok c) (ha : Stands o s ρ X a x)
    (hb : Stands o s ρ X b y) (hz : op.quantity? x y = some z) : Stands o s ρ X c z := by
  cases x with
  | number v =>
    cases y with
    | number w =>
      obtain ⟨u, hu, rfl⟩ := Option.map_eq_some_iff.mp hz
      obtain ⟨hd, he⟩ := Operator.apply_denotes h ⟨ha.1.2, ha.2⟩ ⟨hb.1.2, hb.2⟩ hu
      exact ⟨⟨Everywhere.apply (plain_kept o s) (plain_reciprocal o s) h ha.1.1 hb.1.1, hd⟩, he⟩
    | matrix k =>
      cases op with
      | mul =>
        cases hz
        obtain ⟨hn, rfl⟩ := ha
        obtain ⟨hm, hs, hf, hv⟩ := hb
        obtain ⟨hc, hc'⟩ := mul_matrices (M := X) hN h hn.asSorted hm.asSorted (Or.inr hm.1)
        exact ⟨hc, hs, hf.map _, by rw [hc', hn.value hN, hv, smul_one_mul, Grid.padded_map]⟩
      | _ => cases hz
  | matrix g =>
    cases y with
    | number w =>
      obtain ⟨hm, hs, hf, hv⟩ := ha
      obtain ⟨hn, rfl⟩ := hb
      cases op with
      | mul =>
        cases hz
        obtain ⟨hc, hc'⟩ := mul_matrices (M := X) hN h hm.asSorted hn.asSorted (Or.inl hm.1)
        exact ⟨hc, hs, hf.map _, by rw [hc', hn.value hN, hv, mul_smul_one, Grid.padded_map]⟩
      | div =>
        simp only [Operator.quantity?] at hz
        split at hz
        · cases hz
        · rename_i h0
          cases hz
          obtain ⟨hc, hc'⟩ := div_matrices (M := X) hN h hm hn h0
          exact ⟨hc, hs, hf.map _, by rw [hc', hv, Grid.padded_map]⟩
      | _ => cases hz
    | matrix k =>
      cases op with
      | add =>
        obtain ⟨l, hl, rfl⟩ := Option.map_eq_some_iff.mp hz
        exact Stands.add hN h ha hb hl
      | sub =>
        obtain ⟨l, hl, rfl⟩ := Option.map_eq_some_iff.mp hz
        exact Stands.add hN h ha hb.neg hl
      | mul =>
        simp only [Operator.quantity?] at hz
        split at hz
        · cases hz
          exact Stands.mul hN h ha hb
        · cases hz
      | div => cases hz

theorem Stands.substitute_number (hN : s.Fits N) (h : substitute e name v = .ok c) (he : Stands o s ρ X e x)
    (hv : Stands o s ρ X v (.number (ρ name))) (hne : o ≠ some name) : Stands o s ρ X c x := by
  cases x with
  | number w =>
    obtain ⟨hn, rfl⟩ := he
    exact substitute_numbers h hv.1 hv.2 hn
  | matrix g =>
    obtain ⟨hm, hs, hf, hg⟩ := he
    obtain ⟨hc, hc'⟩ := substitute_by_number (M := X) hN h hv.1 hv.2 hne hm
    exact ⟨hc, hs, hf, by rw [hc', hg]⟩

theorem Stands.substitute_matrix (hN : s.Fits N) {M : Grid ℚ} (h : substitute e name v = .ok c)
    (he : Stands (some name) s ρ (M.padded N) e x) (hv : Stands none s ρ (M.padded N) v (.matrix M)) :
    Stands none s ρ (M.padded N) c x := by
  cases x with
  | number w =>
    obtain ⟨hn, rfl⟩ := he
    cases (substitute_of_not_mem hn.not_mem).symm.trans h
    exact ⟨hn.without_name, rfl⟩
  | matrix g =>
    obtain ⟨hm, hs, hf, hg⟩ := he
    obtain ⟨hc, hc'⟩ := substitute_by_matrix hN h hv.1 hv.2.2.2 hm
    exact ⟨hc, hs, hf, by rw [hc', hg]⟩

theorem Stands.normalize (hN : s.Fits N) (h : normalize e = .ok c) (he : Stands o s ρ X e x) : Stands o s ρ X c x := by
  cases x with
  | number w =>
    obtain ⟨hn, rfl⟩ := he
    exact normalize_numbers h hn
  | matrix g =>
    obtain ⟨hm, hs, hf, hg⟩ := he
    obtain ⟨hc, hc'⟩ := normalize_matrices (M := X) hN h hm
    exact ⟨hc, hs, hf, by rw [hc', hg]⟩

/-- Trees that stand for one quantity and have a shape stand for the same matrix, or number. -/
theorem Stands.same (hN : s.Fits N) (ha : Stands none s ρ X a x) (hb : Stands none s ρ X b x) {t u : Shape}
    (ht : a.shape = .ok t) (hu : b.shape = .ok u) : ∃ g k, grid? ρ a = some g ∧ grid? ρ b = some k ∧ g.Same k := by
  cases x with
  | number v =>
    refine ⟨_, _, ha.1.1.grid?, hb.1.1.grid?, Or.inl ?_⟩
    rw [ha.2, hb.2]
  | matrix g => exact same_of_value hN ha.1.1 hb.1.1 ht hu (by rw [ha.2.2.2, hb.2.2.2])

/-! ## Names that have numbers -/

/-- The tree stands for the quantity, and every name in it has a number, except that of the matrix. -/
def Represents (o : Option String) (ν : String → Option ℚ) (M : Grid ℚ) (ρ : String → ℚ) (N : Nat) (e : Expr ℚ)
    (x : Quantity) : Prop :=
  Stands o M.shape ρ (M.padded N) e x ∧ ∀ n ∈ e.freeNames, o = some n ∨ ν n ≠ none

section
variable {ν : String → Option ℚ} {M : Grid ℚ} {w : ℚ}

/-- A number does not mention the matrix. -/
theorem Represents.number_ne_none (h : Represents o ν M ρ N e (.number w)) {n : String} (hn : n ∈ e.freeNames) :
    ν n ≠ none := by
  refine (h.2 n hn).resolve_left ?_
  rintro rfl
  exact h.1.1.not_mem hn

theorem Represents.without_name (h : Represents (some name) ν M ρ N e (.number w)) :
    Represents none ν M ρ N e (.number w) :=
  ⟨⟨h.1.1.without_name, h.1.2⟩, fun _ hn => Or.inr (h.number_ne_none hn)⟩

theorem Represents.substitute_number (hN : M.shape.Fits N) (h : substitute e name v = .ok c)
    (he : Represents o ν M ρ N e x) (hv : Represents o ν M ρ N v (.number (ρ name))) (hne : o ≠ some name) :
    Represents o ν M ρ N c x := by
  refine ⟨he.1.substitute_number hN h hv.1 hne, fun n hn => ?_⟩
  rcases freeNames_substitute h hn with ⟨hn, -⟩ | hn
  · exact he.2 n hn
  · exact hv.2 n hn

theorem Represents.substitute_matrix (hN : M.shape.Fits N) (h : substitute e name v = .ok c)
    (he : Represents (some name) ν M ρ N e x) (hv : Represents none ν M ρ N v (.matrix M)) :
    Represents none ν M ρ N c x := by
  refine ⟨he.1.substitute_matrix hN h hv.1, fun n hn => ?_⟩
  rcases freeNames_substitute h hn with ⟨hn, hne⟩ | hn
  · exact Or.inr ((he.2 n hn).resolve_left fun h => hne (Option.some.inj h).symm)
  · exact hv.2 n hn

end

end Expr

/-! ## Expressions as they are written -/

namespace ParseTree

open SymbolicAlgebra.Expr

variable {o : Option String} {s : Shape} {ρ : String → ℚ} {N : Nat} {X : Matrix (Fin N) (Fin N) ℚ} {e : Expr ℚ}
  {ν : String → Option ℚ} {name : String} {M : Grid ℚ} {x : Quantity} {t leaf : ParseTree}

/-- What is put in for the name stands for the matrix, so the expression stands for what it comes to. -/
theorem inline_stands (hN : s.Fits N) (hν : ∀ n v, ν n = some v → ρ n = v) (ho : ∀ n, n ≠ name → o ≠ some n)
    (put : ∀ e, leaf.expr? = some e → Stands o s ρ X e (.matrix M)) (he : (t.inline name leaf).expr? = some e)
    (hx : t.quantity? ν name M = some x) : Stands o s ρ X e x := by
  refine inline_induction (Q := Stands o s ρ X) (fun v => ⟨⟨.const v, .const v⟩, eval_const v⟩) (fun n v hn hv => ?_) put
    (fun e x h => h.neg) (fun op a b c x y z ha hb h hz => ha.apply hN h hb hz) he hx
  obtain ⟨hd, he⟩ := ofName_denotes (ρ := ρ) n
  exact ⟨⟨.var (ho n hn), hd⟩, by rw [he, hν n v hv]⟩

/-- Every name of the value has a number or comes with what is put in. -/
theorem inline_names {K : String → Prop} (hK : ∀ n v, ν n = some v → K n)
    (put : ∀ e : Expr ℚ, leaf.expr? = some e → ∀ n ∈ e.freeNames, K n) (he : (t.inline name leaf).expr? = some e)
    (hx : t.quantity? ν name M = some x) : ∀ n ∈ e.freeNames, K n := by
  refine everywhere_named.mp (inline_induction (Q := fun e _ => Everywhere (named K) e) ?_ ?_ ?_ ?_ ?_ he hx)
  · exact fun v => .const v
  · exact fun n v _ hv => .var (hK n v hv)
  · exact fun e he => everywhere_named.mpr (put e he)
  · exact fun e _ h => .neg (named_kept K) h
  · exact fun op a b c _ _ _ ha hb h _ => .apply (named_kept K) (named_reciprocal K) h ha hb

theorem inline_represents (hN : M.shape.Fits N) (hν : ∀ n v, ν n = some v → ρ n = v) (ho : ∀ n, n ≠ name → o ≠ some n)
    (put : ∀ e, leaf.expr? = some e → Represents o ν M ρ N e (.matrix M)) (he : (t.inline name leaf).expr? = some e)
    (hx : t.quantity? ν name M = some x) : Represents o ν M ρ N e x :=
  ⟨inline_stands hN hν ho (fun e he => (put e he).1) he hx,
    inline_names (fun n v hv => Or.inr (by simp [hv])) (fun e he => (put e he).2) he hx⟩

end ParseTree

end SymbolicAlgebra
