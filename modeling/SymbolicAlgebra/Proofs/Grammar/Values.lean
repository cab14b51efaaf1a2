/-
  SymbolicAlgebra.Proofs.Grammar.Values — what holds of every value that can be written.

  A value is read from the bottom up: numbers and names first, then what negation, transposition,
  brackets and the operators make of them. A property that all of these keep
  (`ParseTree.Invariant`) holds of every value of a source (`Program.written_invariant`). If substitution
  and tidying keep it as well, it holds of the values of the program (`Program.parse_invariant`).
-/

import SymbolicAlgebra.Proofs.Grammar.Soundness
import SymbolicAlgebra.Proofs.Grids

namespace SymbolicAlgebra

namespace ParseTree

variable {α : Type} [Scalar α]

/-- A property of values that holds of numbers and names and that every way to write a value keeps. -/
structure Invariant (P : Expr α → Prop) : Prop where
  number (v : α) : P (.const v)
  name (n : String) : P (.ofName n)
  matrix {g : Grid (Expr α)} : g.Filled → (∀ c ∈ g.cells, P c) → P (.matrix g)
  transpose {g : Grid (Expr α)} : P (.matrix g) → P (.matrix g.transpose)
  neg {e : Expr α} : P e → P e.neg
  apply {op : Operator} {a b c : Expr α} : P a → P b → op.apply a b = .ok c → P c

variable {P : Expr α → Prop}

mutual

theorem Invariant.expr? (hP : Invariant P) : ∀ (t : ParseTree) (e : Expr α), t.expr? = some e → P e
  | .number s, e, h => by
    obtain ⟨v, -, rfl⟩ := Option.map_eq_some_iff.mp h
    exact hP.number v
  | .name n, e, h => by
    cases h
    exact hP.name n
  | .paren t, e, h => Invariant.expr? hP t e h
  | .matrix rows, e, h => by
    obtain ⟨es, hes, h⟩ := Option.bind_eq_some_iff.mp h
    obtain ⟨g, hg, h⟩ := Option.bind_eq_some_iff.mp h
    cases h
    refine hP.matrix (Grid.filled_ofRows? hg) fun c hc => ?_
    obtain ⟨row, hrow, hc⟩ := Grid.mem_cells_of_ofRows? hg hc
    exact Invariant.rows? hP rows es hes row hrow c hc
  | .transpose t, e, h => by
    obtain ⟨a, ha, h⟩ := Option.bind_eq_some_iff.mp h
    have ha := Invariant.expr? hP t a ha
    cases a with
    | matrix g =>
      cases h
      exact hP.transpose ha
    | _ => cases h
  | .neg t, e, h => by
    obtain ⟨a, ha, h⟩ := Option.bind_eq_some_iff.mp h
    cases h
    exact hP.neg (Invariant.expr? hP t a ha)
  | .binary op l r, e, h => by
    obtain ⟨a, b, ha, hb, h⟩ := Operator.combined_eq_some.mp h
    exact hP.apply (Invariant.expr? hP l a ha) (Invariant.expr? hP r b hb) h
  | .juxtapose l r, e, h => by
    obtain ⟨a, b, ha, hb, h⟩ := Operator.combined_eq_some.mp h
    exact hP.apply (Invariant.expr? hP l a ha) (Invariant.expr? hP r b hb) h

theorem Invariant.row? (hP : Invariant P) : ∀ (ts : List ParseTree) (es : List (Expr α)), ParseTree.row? ts = some es → ∀ e ∈ es, P e
  | [], es, h => by
    cases h
    simp
  | t :: ts, es, h => by
    obtain ⟨a, ha, h⟩ := Option.bind_eq_some_iff.mp h
    obtain ⟨as, has, h⟩ := Option.bind_eq_some_iff.mp h
    cases h
    exact List.forall_mem_cons.mpr ⟨Invariant.expr? hP t a ha, Invariant.row? hP ts as has⟩

theorem Invariant.rows? (hP : Invariant P) : ∀ (rs : List (List ParseTree)) (ess : List (List (Expr α))), ParseTree.rows? rs = some ess →
    ∀ es ∈ ess, ∀ e ∈ es, P e
  | [], ess, h => by
    cases h
    simp
  | r :: rs, ess, h => by
    obtain ⟨a, ha, h⟩ := Option.bind_eq_some_iff.mp h
    obtain ⟨as, has, h⟩ := Option.bind_eq_some_iff.mp h
    cases h
    exact List.forall_mem_cons.mpr ⟨Invariant.row? hP r a ha, Invariant.rows? hP rs as has⟩

end

/-- What is read as an expression, anywhere in a source. -/
theorem Invariant.read (hP : Invariant P) {p : Phrase} {reader : ExprReader α} (hr : Grammar.Sound p reader)
    {c c' : Cursor} {e : Located (Expr α)} (h : (reader c).result = .ok (e, c')) : P e.value := by
  obtain ⟨t, -, -, ht⟩ := hr c e c' h
  exact hP.expr? t e.value ht

theorem Invariant.read_matrix (hP : Invariant P) {c c' : Cursor} {g : Located (Grid (Expr α))}
    (h : (Grammar.matrix c).result = .ok (g, c')) : P (.matrix g.value) := by
  obtain ⟨t, -, -, ht⟩ := Grammar.matrix_sound (Grammar.exprWithin_sound _) h
  exact hP.expr? t (.matrix g.value) ht

theorem Invariant.read_definition (hP : Invariant P) {c c' : Cursor} {d : Definition α}
    (h : (Grammar.definition c).result = .ok (d, c')) : P d.value := by
  obtain ⟨s, -, -, -, ht⟩ := Grammar.definition_sound h
  exact hP.expr? s.body d.value ht

end ParseTree

namespace Program

variable {α : Type} [Scalar α] {P : Expr α → Prop} {source : String}

/-- What every way to write a value keeps holds of all values that a source defines. -/
theorem written_invariant (hP : ParseTree.Invariant P) {ds : List (Definition α)} (h : written source = .ok ds) :
    ∀ d ∈ ds, P d.value := by
  obtain ⟨ss, hss⟩ := spell_of_written h
  exact forall_mem_right (written_of_spell hss h) fun s _ d hd => hP.expr? s.body d.value hd.2

/-- If substitution and tidying keep it too, it holds of all values of a program. -/
theorem parse_invariant (hP : ParseTree.Invariant P)
    (substitute : ∀ e v c name, e.substitute name v = .ok c → P e → P v → P c)
    (normalize : ∀ e c, e.normalize = .ok c → P e → P c) {p : Program α} (h : parse source = .ok p) :
    ∀ name value, (name, value) ∈ p.definitions → P value := by
  intro name value hp
  obtain ⟨ds, es, hds, hes, hps⟩ := parse_eq_ok.mp h
  have hread := written_invariant hP hds
  have hes := (resolve_induction (I := fun _ _ v => P v) hes
    (fun d hd => hread d (mem_sortByName.mp hd)) (fun _ _ _ _ _ _ hv _ => hv)
    fun _ name value _ v v' hvalue hv _ _ hsub => substitute v value v' name hsub hv hvalue).2
  refine forall_mem_right (Q := fun r => P r.2) hps (fun e he r hr => ?_) (name, value) hp
  obtain ⟨s, -, hv, -⟩ := finish_eq_ok.mp hr
  exact normalize e.value r.2 hv (hes e he)

end Program

end SymbolicAlgebra
