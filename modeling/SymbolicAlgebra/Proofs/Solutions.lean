/-
  SymbolicAlgebra.Proofs.Solutions — reading a program keeps every solution of its definitions.

  The definitions of a program are equations between numbers: `ParseTree.number?` computes the
  right hand side from the text alone, with a number for every name. Numbers that satisfy all
  equations satisfy every value that the program comes to (`parse_denotes`), whether the definitions
  have cycles or not: each turn of the substitution pass replaces a name by a value that stands for
  the same number.
-/

import SymbolicAlgebra.Proofs.Grammar.Soundness
import SymbolicAlgebra.Proofs.Substitution

namespace SymbolicAlgebra

/-- The operation on numbers; there is no division by zero. -/
def Operator.compute? : Operator → ℚ → ℚ → Option ℚ
  | add, v, w => some (v + w)
  | sub, v, w => some (v - w)
  | mul, v, w => some (v * w)
  | div, v, w => if w = 0 then none else some (v / w)

/-- The number that a tree without matrices comes to by plain arithmetic. -/
def ParseTree.number? (ρ : String → ℚ) : ParseTree → Option ℚ
  | .number s => Scalar.ofText? (String.ofList (s.toList.filter (· != '_')))
  | .name n => some (ρ n)
  | .paren e => e.number? ρ
  | .matrix _ => none
  | .transpose _ => none
  | .neg e => (e.number? ρ).map (- ·)
  | .binary op l r => (l.number? ρ).bind fun v => (r.number? ρ).bind fun w => op.compute? v w
  | .juxtapose l r => (l.number? ρ).bind fun v => (r.number? ρ).bind fun w => Operator.mul.compute? v w

namespace Operator

open SymbolicAlgebra.Expr

theorem apply_denotes {op : Operator} {ρ : String → ℚ} {a b c : Expr ℚ} {v w x : ℚ} (h : op.apply a b = .ok c)
    (ha : Denotes ρ a v) (hb : Denotes ρ b w) (hx : op.compute? v w = some x) : Denotes ρ c x := by
  obtain ⟨ha, rfl⟩ := ha
  obtain ⟨hb, rfl⟩ := hb
  cases op with
  | add =>
    cases hx
    exact add_denotes h ha hb
  | sub =>
    cases hx
    exact sub_denotes h ha hb
  | mul =>
    cases hx
    exact mul_denotes h ha hb
  | div =>
    simp only [compute?] at hx
    split at hx
    · cases hx
    · rename_i h0
      cases hx
      exact div_denotes h ha hb (Or.inl h0)

/-- If what is read for the operands stands for what they come to, so it is with both together. -/
theorem combined_denotes {op : Operator} {ρ : String → ℚ} {x y : Option (Expr ℚ)} {p q : Option ℚ} {e : Expr ℚ} {u : ℚ}
    (he : (do (op.apply (← x) (← y)).toOption) = some e) (hu : (p.bind fun v => q.bind fun w => op.compute? v w) = some u)
    (hx : ∀ {a v}, x = some a → p = some v → Denotes ρ a v) (hy : ∀ {b w}, y = some b → q = some w → Denotes ρ b w) :
    Denotes ρ e u := by
  obtain ⟨a, b, ha, hb, he⟩ := combined_eq_some.mp he
  obtain ⟨v, hv, hu⟩ := Option.bind_eq_some_iff.mp hu
  obtain ⟨w, hw, hu⟩ := Option.bind_eq_some_iff.mp hu
  exact apply_denotes he (hx ha hv) (hy hb hw) hu

end Operator

namespace ParseTree

open SymbolicAlgebra.Expr

variable {ρ : String → ℚ}

theorem ofName_denotes (n : String) : Denotes ρ (.ofName n) (ρ n) := by
  have hexponent : (Monomial.ofName n : Monomial ℚ).exponent = ((1 : ℤ) : ℚ) := Int.cast_one.symm
  refine ⟨.var ⟨1, hexponent, by omega⟩, ?_⟩
  rw [ofName, eval_var, Monomial.eval, hexponent, Int.floor_intCast, zpow_one]
  exact one_mul _

/-- The value that is read for a tree stands for the number that it comes to. -/
theorem expr?_denotes {t : ParseTree} {e : Expr ℚ} {v : ℚ} (he : t.expr? = some e) (hv : t.number? ρ = some v) :
    Denotes ρ e v := by
  fun_induction ParseTree.number? ρ t generalizing e v with
  | case1 s =>
    rw [expr?, hv] at he
    cases he
    exact ⟨.const v, eval_const v⟩
  | case2 n =>
    cases hv
    rw [expr?] at he
    cases he
    exact ofName_denotes n
  | case3 t ih =>
    rw [expr?] at he
    exact ih he hv
  | case4 => cases hv
  | case5 => cases hv
  | case6 t ih =>
    obtain ⟨w, hw, rfl⟩ := Option.map_eq_some_iff.mp hv
    rw [expr?] at he
    obtain ⟨a, ha, he⟩ := Option.bind_eq_some_iff.mp he
    cases he
    obtain ⟨hd, rfl⟩ := ih ha hw
    exact neg_denotes hd
  | case7 op l r ihl ihr =>
    rw [expr?] at he
    exact Operator.combined_denotes he hv ihl ihr
  | case8 l r ihl ihr =>
    rw [expr?] at he
    exact Operator.combined_denotes he hv ihl ihr

end ParseTree

namespace Program

open SymbolicAlgebra.Expr

variable {ρ : String → ℚ}

/-- The substitution pass keeps a solution: what a name stands for, its value stands for. -/
theorem resolve_denotes {ds es : List (Definition ℚ)} (h : (resolve ds).result = .ok es)
    (hds : ∀ d ∈ ds, Denotes ρ d.value (ρ d.name)) : ∀ e ∈ es, Denotes ρ e.value (ρ e.name) := by
  refine (resolve_induction (I := fun _ name value => Denotes ρ value (ρ name)) h hds ?_ ?_).2
  · exact fun _ _ _ _ _ _ hv _ => hv
  · rintro - name value target v v' ⟨hd, hvalue⟩ ⟨hd', hv⟩ - - hsub
    -- The name stands for what its value stands for, so reading it as that value changes nothing.
    have hρ : Function.update ρ name (eval ρ value) = ρ := by rw [hvalue, Function.update_eq_self]
    have := substitute_denotes hsub hd (by rwa [hρ])
    rwa [hρ, hv] at this

/-- Where the definitions come to the numbers of their names, so do the final values. -/
theorem definitions_denote {source : String} {p : Program ℚ} (h : parse source = .ok p) {ss : List Statement}
    (hss : Statement.Spell ss source) (hρ : ∀ s ∈ ss, s.body.number? ρ = some (ρ s.name)) :
    ∀ name value, (name, value) ∈ p.definitions → Denotes ρ value (ρ name) := by
  intro name value hp
  obtain ⟨ds, es, hds, hes, hps⟩ := parse_eq_ok.mp h
  have hread : ∀ d ∈ ds, Denotes ρ d.value (ρ d.name) :=
    forall_mem_right (written_of_spell hss hds) fun s hs d hd => by
      obtain ⟨hname, hv⟩ := hd
      rw [hname]
      exact ParseTree.expr?_denotes hv (hρ s hs)
  have hes := resolve_denotes hes fun d hd => hread d (mem_sortByName.mp hd)
  refine forall_mem_right (Q := fun r => Denotes ρ r.2 (ρ r.1)) hps (fun e he r hr => ?_) (name, value) hp
  obtain ⟨s, hn, hv, -⟩ := finish_eq_ok.mp hr
  obtain ⟨hd, hvalue⟩ := hes e he
  rw [hn, ← hvalue]
  exact normalize_denotes hv hd

/-- Reading a program keeps every solution of its definitions. A source that can be read is written
    by the grammar; and if, however it is written, every definition comes to the number of its name,
    then every definition has a final value, and it comes to that number. -/
theorem parse_denotes {source : String} {p : Program ℚ} (h : parse source = .ok p) :
    (∃ ss, Statement.Spell ss source) ∧ ∀ ss, Statement.Spell ss source → ∀ ρ : String → ℚ,
      (∀ s ∈ ss, s.body.number? ρ = some (ρ s.name)) →
        ∀ s ∈ ss, ∃ value, p.get s.name = .ok value ∧ Denotes ρ value (ρ s.name) := by
  obtain ⟨ds, -, hds, -⟩ := parse_eq_ok.mp h
  refine ⟨spell_of_written hds, fun ss hss ρ hρ s hs => ?_⟩
  obtain ⟨value, hget⟩ := exists_get_of_spell h hss hs
  exact ⟨value, hget, definitions_denote h hss hρ s.name value (mem_of_get hget)⟩

/-- A name that is defined by another one, which is defined after it. -/
theorem parse_denotes_chain :
    ∃ value, (⟨[("a", .sum [.var ⟨"c", 2, 1⟩, .const 1]), ("b", .var ⟨"c", 2, 1⟩)]⟩ : Program ℚ).get "a" = .ok value ∧
      Denotes (fun n => if n = "a" then 7 else if n = "b" then 6 else 3) value 7 := by
  have h : parse "a=b+1;b=2*c;" =
      .ok (⟨[("a", .sum [.var ⟨"c", 2, 1⟩, .const 1]), ("b", .var ⟨"c", 2, 1⟩)]⟩ : Program ℚ) := by cbv
  have hs : Statement.Spell [⟨"a", .binary .add (.name "b") (.number "1")⟩, ⟨"b", .binary .mul (.number "2") (.name "c")⟩]
      "a=b+1;b=2*c;" := by
    refine ⟨by cbv, List.forall_mem_cons.mpr ⟨?_, List.forall_mem_cons.mpr ⟨?_, by simp⟩⟩⟩
    · exact .additive (Or.inl rfl) (.term (.unary (.primed (.operand (.name _))))) (.unary (.primed (.operand (.number _))))
    · exact .term (.multiplicative (Or.inl rfl) (.unary (.primed (.operand (.number _)))) (.primed (.operand (.name _))))
  refine (parse_denotes h).2 _ hs (fun n => if n = "a" then 7 else if n = "b" then 6 else 3) ?_ _ List.mem_cons_self
  refine List.forall_mem_cons.mpr ⟨?_, List.forall_mem_cons.mpr ⟨?_, by simp⟩⟩
  · cbv
  · cbv

end Program

end SymbolicAlgebra
