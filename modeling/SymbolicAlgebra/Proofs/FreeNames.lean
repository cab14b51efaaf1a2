/-
  SymbolicAlgebra.Proofs.FreeNames — where the names in a value come from.

  `Expr.freeNames` lists the names that occur in a tree, which is a condition on its monomials
  (`everywhere_named`). So no operation invents a name: `freeNames_substitute` and
  `freeNames_normalize` say where the names of the results come from.

  Substitution leaves everything but its own name alone: the other names stay
  (`mem_freeNames_substitute`), and a tree in which the name does not occur is not changed at all
  (`substitute_of_not_mem`).
-/

import SymbolicAlgebra.Proofs.Everywhere
import SymbolicAlgebra.Proofs.Rational

namespace SymbolicAlgebra.Expr

variable {α : Type}

@[simp] theorem mem_insertName {x n : String} {ns : List String} : x ∈ insertName n ns ↔ x = n ∨ x ∈ ns := by
  induction ns with
  | nil => simp [insertName]
  | cons m ms ih =>
    unfold insertName
    split
    · rename_i e
      simp [e]
    · split
      · simp
      · simp only [List.mem_cons, ih]
        tauto

@[simp] theorem mem_mergeNames {x : String} {ns ms : List String} : x ∈ mergeNames ns ms ↔ x ∈ ns ∨ x ∈ ms := by
  unfold mergeNames
  induction ns with
  | nil => simp
  | cons n ns ih => simp [ih, or_assoc]

@[simp] theorem mem_freeNamesAll {x : String} {es : List (Expr α)} : x ∈ freeNamesAll es ↔ ∃ e ∈ es, x ∈ e.freeNames := by
  induction es with
  | nil => simp [freeNamesAll]
  | cons e es ih => simp [freeNamesAll, ih]

/-- Every name in the tree is one of `N`. -/
def named (N : String → Prop) : Condition α := ⟨fun m => N m.name, fun _ _ _ => True⟩

theorem everywhere_named {N : String → Prop} {e : Expr α} : Everywhere (named N) e ↔ ∀ x ∈ e.freeNames, N x := by
  induction e with
  | const v => simp [freeNames]
  | var m => simp [freeNames, named]
  | sum ts ih =>
    rw [Everywhere.sum_iff, freeNames]
    simp only [mem_freeNamesAll, forall_exists_index, and_imp]
    exact ⟨fun h x t ht hx => (ih t ht).mp (h t ht) x hx, fun h t ht => (ih t ht).mpr fun x hx => h x t ht hx⟩
  | product fs ih =>
    rw [Everywhere.product_iff, freeNames]
    simp only [mem_freeNamesAll, forall_exists_index, and_imp]
    exact ⟨fun h x f hf hx => (ih f hf).mp (h f hf) x hx, fun h f hf => (ih f hf).mpr fun x hx => h x f hf hx⟩
  | matrix g ih =>
    rw [Everywhere.matrix_iff, freeNames]
    simp only [mem_freeNamesAll, forall_exists_index, and_imp]
    exact ⟨fun h x c hc hx => (ih c hc).mp (h.2 c hc) x hx,
      fun h => ⟨trivial, fun c hc => (ih c hc).mpr fun x hx => h x c hc hx⟩⟩

/-- The names are those of the variables among the nodes. -/
theorem mem_freeNames_iff {x : String} {e : Expr α} : x ∈ e.freeNames ↔ ∃ m, Occurs (.var m) e ∧ m.name = x := by
  have hnone : x ∉ e.freeNames ↔ ∀ m, Occurs (.var m) e → m.name ≠ x := by
    have heverywhere : Everywhere (named (· ≠ x)) e ↔ ∀ m, Occurs (.var m) e → m.name ≠ x := by
      rw [Everywhere.iff_occurs]
      exact ⟨fun h => h.1, fun h => ⟨h, fun _ _ => trivial⟩⟩
    rw [← heverywhere, everywhere_named]
    exact ⟨fun h y hy hyx => h (hyx ▸ hy), fun h hx => h x hx rfl⟩
  rw [← not_iff_not, hnone]
  push Not
  rfl

variable [Scalar α]

theorem named_kept (N : String → Prop) : (named (α := α) N).Kept where
  neg h := h
  bare h := h
  quantity _ h := h
  power _ _ _ h _ := h
  zip _ _ := trivial
  mul _ _ := trivial

theorem named_reciprocal (N : String → Prop) : (named (α := α) N).Reciprocal := fun _ _ h => h

/-- A name after a substitution was there before and is not the one replaced, or is one of the
    value put in. -/
theorem freeNames_substitute {e v c : Expr α} {name x : String} (h : substitute e name v = .ok c)
    (hx : x ∈ c.freeNames) : (x ∈ e.freeNames ∧ x ≠ name) ∨ x ∈ v.freeNames := by
  let N (x : String) := (x ∈ e.freeNames ∧ x ≠ name) ∨ x ∈ v.freeNames
  have he : Everywhere (named fun x => x ≠ name → N x) e := everywhere_named.mpr fun x hx hn => Or.inl ⟨hx, hn⟩
  have hv : Everywhere (named N) v := everywhere_named.mpr fun x hx => Or.inr hx
  exact everywhere_named.mp (Everywhere.substitute (named_kept N) (named_reciprocal N) h he hv) x hx

theorem freeNames_normalize {e c : Expr α} {x : String} (h : normalize e = .ok c) (hx : x ∈ c.freeNames) :
    x ∈ e.freeNames :=
  everywhere_named.mp (Everywhere.normalize (named_kept _) h (everywhere_named.mpr fun _ hy => hy)) x hx

/-! ## What substitution leaves alone -/

section
variable {e v c : Expr α} {name : String}

/-- Without the name there is nothing to replace. -/
theorem substitute_of_not_mem (hname : name ∉ e.freeNames) : substitute e name v = .ok e := by
  have he : Everywhere (named (· ≠ name)) e := everywhere_named.mpr fun x hx h => hname (h ▸ hx)
  clear hname
  have all : ∀ {es : List (Expr α)}, (∀ x ∈ es, substitute x name v = .ok x) →
      List.Forall₂ (fun x y => substitute x name v = .ok y) es es := fun h => List.forall₂_same.mpr h
  induction he with
  | const w => exact substitute_const.mpr rfl
  | @var m hm => simp [substitute, show m.name ≠ name from hm, pure, Except.pure]
  | sum _ ih => exact substitute_sum.mpr ⟨_, all ih, rfl⟩
  | product _ ih => exact substitute_product.mpr ⟨_, all ih, rfl⟩
  | matrix _ _ ih => exact substitute_matrix.mpr ⟨_, all ih, rfl⟩

/-- Every other name stays. -/
theorem mem_freeNames_substitute {x : String} (h : substitute e name v = .ok c) (hx : x ∈ e.freeNames)
    (hne : x ≠ name) : x ∈ c.freeNames := by
  have all : ∀ {es fs : List (Expr α)}, (∀ e ∈ es, ∀ {c}, substitute e name v = .ok c → x ∈ e.freeNames → x ∈ c.freeNames) →
      List.Forall₂ (fun e f => substitute e name v = .ok f) es fs → x ∈ freeNamesAll es → x ∈ freeNamesAll fs := by
    intro es fs ih hes hx
    obtain ⟨e, he, hx⟩ := mem_freeNamesAll.mp hx
    obtain ⟨f, hf, hsub⟩ := exists_mem_right hes he
    exact mem_freeNamesAll.mpr ⟨f, hf, ih e he hsub hx⟩
  induction e generalizing c with
  | const w => cases hx
  | var m =>
    rcases substitute_var h with ⟨hm, -⟩ | ⟨-, rfl⟩
    · exact absurd ((List.mem_singleton.mp hx).trans hm) hne
    · exact hx
  | sum ts ih =>
    obtain ⟨us, hus, rfl⟩ := substitute_sum.mp h
    exact all ih hus hx
  | product fs ih =>
    obtain ⟨gs, hgs, rfl⟩ := substitute_product.mp h
    exact all ih hgs hx
  | matrix g ih =>
    obtain ⟨cells, hcells, rfl⟩ := substitute_matrix.mp h
    exact all ih hcells hx

/-- Substitution touches only its name. The names afterwards are the other ones of the tree, all of
    them, and beside them none that is not one of the value; so the name is gone unless the value
    mentions it. A tree without the name comes out as it is. -/
theorem substitute_frame (h : substitute e name v = .ok c) :
    (∀ x ∈ c.freeNames, (x ∈ e.freeNames ∧ x ≠ name) ∨ x ∈ v.freeNames) ∧
      (∀ x ∈ e.freeNames, x ≠ name → x ∈ c.freeNames) ∧ (name ∉ v.freeNames → name ∉ c.freeNames) ∧
      (name ∉ e.freeNames → c = e) := by
  have hfrom : ∀ x ∈ c.freeNames, (x ∈ e.freeNames ∧ x ≠ name) ∨ x ∈ v.freeNames := fun x => freeNames_substitute h
  refine ⟨hfrom, fun x => mem_freeNames_substitute h, fun hv hc => ?_, fun he => ?_⟩
  · rcases hfrom name hc with ⟨-, hne⟩ | hv'
    · exact hne rfl
    · exact hv hv'
  · cases (substitute_of_not_mem he).symm.trans h
    rfl

end

/-- `y z` in the place of `x` in `3 x ^ -2 * [x, y]`, and in the place of a name that is not there. -/
theorem substitute_frame_power :
    let e : Expr ℚ := .product [.var ⟨"x", 3, -2⟩, .matrix ⟨1, 2, [.ofName "x", .ofName "y"]⟩]
    let v : Expr ℚ := .product [.ofName "y", .ofName "z"]
    ∃ c, substitute e "x" v = .ok c ∧ "x" ∉ c.freeNames ∧ "y" ∈ c.freeNames ∧
      ∀ c', substitute e "w" v = .ok c' → c' = e := by
  intro e v
  have h : substitute e "x" v = .ok (.product [.product [.const 3, .var ⟨"y", 1, -2⟩, .var ⟨"z", 1, -2⟩],
      .matrix ⟨1, 2, [v, .ofName "y"]⟩]) := by cbv
  have he : e.freeNames = ["x", "y"] := by cbv
  have hv : v.freeNames = ["y", "z"] := by cbv
  obtain ⟨-, hstay, hgone, -⟩ := substitute_frame h
  refine ⟨_, h, hgone (by simp [hv]), hstay "y" (by simp [he]) (by decide), fun c' h' => ?_⟩
  exact (substitute_frame h').2.2.2 (by simp [he])

end SymbolicAlgebra.Expr
