/-
  SymbolicAlgebra.Proofs.Arity — sums and products have two children at least.

  A sum loses terms that cancel and a product its number when it becomes one; substitution and tidying
  make new nodes of what the parts come to. A node that is left with one child or none is replaced by
  that child, or by the number zero or one. So where every sum and every product of the operands has
  two children at least (`Branching`), it has in the result of every operation, and in the values
  of a program that is read (`branching_everywhere`).
-/

import SymbolicAlgebra.Proofs.Forms
import SymbolicAlgebra.Proofs.Outcomes.Substitute
import SymbolicAlgebra.Proofs.Grammar.Values
import SymbolicAlgebra.Proofs.Resolution
import SymbolicAlgebra.Proofs.Rational

namespace SymbolicAlgebra

/-- Two terms at least in a sum, two factors in a product. -/
def Form.branching (α : Type) : Form α where
  terms n := 2 ≤ n
  factors fs := 2 ≤ fs.length

namespace Expr

variable {α : Type}

/-- Every sum of the tree has two terms at least, every product two factors. -/
abbrev Branching (e : Expr α) : Prop := Formed (.branching α) e

namespace Branching

theorem factors_pos {e : Expr α} (h : Branching e) : 1 ≤ e.factors.length := by
  cases h with
  | product h _ => exact Nat.le_of_lt h
  | _ => exact le_rfl

/-- Nothing is asked of monomials and of grids. -/
theorem anywhere (e : Expr α) : Everywhere ⟨fun _ => True, fun _ _ _ => True⟩ e :=
  Everywhere.iff_occurs.mpr ⟨fun _ _ => trivial, fun _ _ => trivial⟩

variable [Scalar α]

theorem anything_kept : (⟨fun _ => True, fun _ _ _ => True⟩ : Condition α).Kept where
  neg h := h
  bare h := h
  quantity _ h := h
  power _ _ _ h _ := h
  zip h _ := h
  mul h _ := h

theorem kept : (Form.branching α).Kept where
  terms h := h
  neg {fs} h := by
    rcases negFactors_cases fs with ⟨xs, f, ys, rfl, -, hneg⟩ | ⟨-, hneg⟩
    · simpa [Form.branching, hneg] using h
    · rw [hneg]
      exact Nat.le_succ_of_le h
  change h := h
  drop h _ := h
  put _ h := Nat.le_succ_of_le h
  split h _ := h

theorem joins : (Form.branching α).Joins Branching Branching where
  left h := h
  right h := h
  collapse m _ := .ofMonomial m
  join {a b} ha hb _ := by
    have hlength : 2 ≤ (a.factors ++ b.factors).length := by
      rw [List.length_append]
      exact Nat.add_le_add (factors_pos ha) (factors_pos hb)
    exact hlength
  powers _ _ := ⟨le_rfl, fun _ => Nat.le_succ 2⟩

theorem mul {a b c : Expr α} (h : a.mul b = .ok c) (ha : Branching a) (hb : Branching b) : Branching c :=
  Formed.mul kept joins h (fun _ hu => ha.of_occurs hu.occurs) fun _ hu => hb.of_occurs hu.occurs

theorem mul_foldlM {fs : List (Expr α)} {p c : Expr α} (h : fs.foldlM Expr.mul p = .ok c) (hp : Branching p)
    (hfs : ∀ f ∈ fs, Branching f) : Branching c :=
  foldlM_keeps h hp fun _ hs f hf _ hs' => mul hs' hs (hfs f hf)

theorem divides : (Form.branching α).Divides ⟨fun _ => True, fun _ _ _ => True⟩ where
  append {fs m} h := by
    have hlength : 2 ≤ (fs ++ [Expr.var m]).length := by
      rw [List.length_append]
      exact Nat.le_succ_of_le h
    exact hlength
  powers _ _ := ⟨le_rfl, fun _ => Nat.le_succ 2⟩
  replace h := by simpa [Form.branching] using h
  remove := by
    intro xs ys m v c _ h hc
    obtain ⟨hxs, hys⟩ := List.forall_mem_append.mp h.children
    exact mul_foldlM hc (.const v) (List.forall_mem_append.mpr ⟨hxs, (List.forall_mem_cons.mp hys).2⟩)

theorem div {a b c : Expr α} (h : a.div b = .ok c) (ha : Branching a) : Branching c :=
  Formed.div kept divides anything_kept (fun _ _ h => h) h ⟨anywhere a, ha⟩ (anywhere b)

/-! ## Substitution and tidying -/

theorem mulTimes {v e c : Expr α} {n : Nat} (h : mulTimes v n e = .ok c) (hv : Branching v) (he : Branching e) :
    Branching c := by
  rw [mulTimes_eq_foldlM] at h
  exact foldlM_keeps h he fun s hs x hx s' hmul => mul hmul hs (List.eq_of_mem_replicate hx ▸ hv)

theorem expand {m : Monomial α} {v c : Expr α} (h : expand m v = .ok c) (hv : Branching v) : Branching c := by
  obtain ⟨-, ⟨-, rfl⟩ | ⟨n, p, q, -, hp, hq, hc⟩⟩ := expand_eq_ok h
  · exact .const _
  · have hp := mulTimes hp hv hv
    have hq : Branching q := by
      rcases hq with ⟨-, rfl⟩ | ⟨-, hq⟩
      · exact hp
      · exact div hq (.const 1)
    rcases hc with ⟨-, rfl⟩ | hc
    · exact hq
    · exact mul hc (.const _) hq

theorem substitute {e v c : Expr α} {name : String} (h : substitute e name v = .ok c) (he : Branching e)
    (hv : Branching v) : Branching c := by
  induction he generalizing c with
  | const w =>
    cases substitute_const.mp h
    exact .const w
  | var m =>
    rcases substitute_var h with ⟨-, h⟩ | ⟨-, rfl⟩
    · exact expand h hv
    · exact .var m
  | sum hn _ ih =>
    obtain ⟨us, hus, rfl⟩ := substitute_sum.mp h
    exact .sum (hn.trans hus.length_eq.le) (forall_mem_right hus fun x hx y hy => ih x hx hy)
  | product hn _ ih =>
    obtain ⟨gs, hgs, rfl⟩ := substitute_product.mp h
    exact .product (hn.trans hgs.length_eq.le) (forall_mem_right hgs fun x hx y hy => ih x hx hy)
  | matrix _ ih =>
    obtain ⟨cs, hcs, rfl⟩ := substitute_matrix.mp h
    exact .cells hcs fun x hx y hy => ih x hx hy

/-- A tidied product is multiplied again from its factors. -/
theorem recombine {fs : List (Expr α)} {c : Expr α} (h : recombine fs = .ok c) (hf : ∀ f ∈ fs, Branching f) :
    Branching c := by
  rcases recombine_eq_ok h with ⟨-, rfl⟩ | ⟨-, rfl⟩ | ⟨first, more, p, hr, hp, h⟩
  · exact .const 0
  · exact .const _
  · have hs := Formed.splitFrom (v := 1) hf
    rw [show (splitFrom 1 fs).2 = first :: more from hr] at hs
    obtain ⟨hfirst, hmore⟩ := List.forall_mem_cons.mp hs
    exact mul h (.const _) (mul_foldlM hp hfirst hmore)

theorem normalize {e c : Expr α} (h : normalize e = .ok c) (he : Branching e) : Branching c := by
  induction he generalizing c with
  | const v =>
    cases normalize_const.mp h
    exact .const v
  | var m =>
    cases normalize_var.mp h
    exact .ofMonomial m
  | sum hn hts _ =>
    cases normalize_sum.mp h
    exact .sum hn hts
  | product _ _ ih =>
    obtain ⟨hs, hhs, h⟩ := normalize_product.mp h
    exact recombine h (forall_mem_spliced hhs fun x hx y hy => (ih x hx hy).factors)
  | matrix _ ih =>
    obtain ⟨cs, hcs, rfl⟩ := normalize_matrix.mp h
    exact .cells hcs fun x hx y hy => ih x hx hy

theorem factorRange {fs : List (Expr α)} {start stop : Nat} {c : Expr α} (h : factorRange fs start stop = .ok c)
    (hfs : ∀ f ∈ fs, Branching f) : Branching c := by
  obtain ⟨gs, hgs, rfl⟩ := factorRange_eq_ok h
  exact .ofFactors (fun hlength => hlength) fun g hg => hfs g (hgs hg)

/-! ## Values of programs -/

theorem invariant : ParseTree.Invariant (α := α) Branching where
  number v := .const v
  name n := .var _
  matrix _ h := .matrix h
  transpose h := .matrix fun c hc => h.children c (Grid.mem_cells_of_mem_transpose hc)
  neg h := h.neg kept
  apply := by
    intro op a b c ha hb h
    cases op with
    | add => exact Formed.add kept h ha hb
    | sub => exact Formed.sub kept h ha hb
    | mul => exact mul h ha hb
    | div => exact div h ha

theorem parse {source : String} {p : Program α} (h : Program.parse source = .ok p) :
    ∀ name value, (name, value) ∈ p.definitions → Branching value :=
  Program.parse_invariant invariant (fun _ _ _ _ => substitute) (fun _ _ => normalize) h

end Branching

variable [Scalar α]

/-- No operation leaves a sum or a product with less than two children. -/
theorem branching_everywhere :
    (∀ a b c : Expr α, Branching a → Branching b → a.add b = .ok c ∨ a.sub b = .ok c ∨ a.mul b = .ok c ∨
      a.div b = .ok c ∨ (∃ name, a.substitute name b = .ok c) → Branching c) ∧
    (∀ a : Expr α, Branching a → Branching a.neg ∧ (∀ c, a.normalize = .ok c → Branching c) ∧
      ∀ fs start stop c, a = .product fs → factorRange fs start stop = .ok c → Branching c) ∧
    ∀ (source : String) (p : Program α), Program.parse source = .ok p →
      ∀ name value, (name, value) ∈ p.definitions → Branching value := by
  refine ⟨?_, ?_, fun source p h => Branching.parse h⟩
  · rintro a b c ha hb (h | h | h | h | ⟨name, h⟩)
    · exact Formed.add Branching.kept h ha hb
    · exact Formed.sub Branching.kept h ha hb
    · exact Branching.mul h ha hb
    · exact Branching.div h ha
    · exact Branching.substitute h ha hb
  · refine fun a ha => ⟨ha.neg Branching.kept, fun c h => Branching.normalize h ha, ?_⟩
    rintro fs start stop c rfl h
    exact Branching.factorRange h ha.children

/-- A sum that loses a term, and a product that loses its number. -/
theorem branching_everywhere_collapse :
    let x : Expr ℚ := .ofName "x"
    let y : Expr ℚ := .ofName "y"
    Branching (.product [.const 2, y]) ∧ Branching (.product [x, y]) := by
  intro x y
  have htwice : Branching (.product [.const 2, y]) :=
    .product (Nat.le_refl 2) (List.forall_mem_cons.mpr ⟨.const 2, List.forall_mem_singleton.mpr (.var _)⟩)
  have hsum : Branching (.sum [x, .product [.const 2, y]]) :=
    .sum (Nat.le_refl 2) (List.forall_mem_cons.mpr ⟨.var _, List.forall_mem_singleton.mpr htwice⟩)
  have hsub : (Expr.sum [x, .product [.const 2, y]]).sub x = .ok (.product [.const 2, y]) := by cbv
  have hp : Program.parse "z=u*v;u=-x;v=-y;" =
      .ok (⟨[("u", .var ⟨"x", -1, 1⟩), ("v", .var ⟨"y", -1, 1⟩), ("z", .product [x, y])]⟩ : Program ℚ) := by cbv
  exact ⟨branching_everywhere.1 _ x _ hsum (.var _) (Or.inr (Or.inl hsub)),
    branching_everywhere.2.2 _ _ hp "z" _ (by simp)⟩

end Expr

end SymbolicAlgebra
