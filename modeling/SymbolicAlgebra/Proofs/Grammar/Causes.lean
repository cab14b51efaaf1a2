/-
  SymbolicAlgebra.Proofs.Grammar.Causes — checks that no source fails.

  The grammar makes sure of two things that the reader checks once more. What the scanner takes for a
  number is digits, with at most one point and at least one digit, once the underscores are left out
  (`Token.plain_of_number`), so reading the number cannot fail. And a row is compared with the first one
  as soon as it is complete, and has an entry by then, so the rows that are read to the closing bracket
  can always be put together (`Grammar.EntriesRun.level`).

  So no problem is about a number, and the only matrix that is called empty is one with nothing but blanks
  between its brackets (`Raised.justified`).
-/

import SymbolicAlgebra.Proofs.Grammar.Acceptance
import SymbolicAlgebra.Proofs.Grammar.Problems

namespace SymbolicAlgebra

/-! ## Justified problems -/

/-- Among these tokens there are two brackets with nothing but blanks between them, in this region. -/
def Token.EmptyBrackets (ts : List Token) (s : Span) : Prop :=
  ∃ before opening blanks closing after, ts = before ++ opening :: (blanks ++ closing :: after) ∧
    opening.kind = .openSquare ∧ (∀ t ∈ blanks, t.kind = .whitespace) ∧ closing.kind = .closeSquare ∧
    s = ⟨opening.span.start, closing.span.stop⟩

/-- The problem is not that a number cannot be read, and if it is that a matrix is empty, the matrix is
    written without entries. -/
structure Problem.Justified (source : String) (e : Problem) : Prop where
  number : ∀ lexeme, e.cause ≠ .invalidNumber lexeme
  matrix : e.cause = .emptyMatrix → ∃ s, e.spans = [s] ∧ Token.EmptyBrackets (Token.scan source) s

/-- With numbers that can be read from any digits with at most one point and at least one digit, whatever is
    wrong with a source is justified. -/
theorem Problem.Raised.justified {α : Type} [Scalar α] {source : String} {stop : Nat} {e : Problem}
    (hplain : ∀ s : String, Numeral.Plain s.toList → (Scalar.ofText? s : Option α).isSome = true)
    (h : Raised α (Token.scan source) stop e) : e.Justified source := by
  have other {cause : Cause} {spans : List Span} (hnumber : ∀ lexeme, cause ≠ .invalidNumber lexeme)
      (hmatrix : cause ≠ .emptyMatrix) : Justified source ⟨cause, spans⟩ := ⟨hnumber, fun hc => absurd hc hmatrix⟩
  cases h with
  | unreadable ht hk hread =>
    have hsome := hplain _ (by rw [String.toList_ofList]; exact Token.plain_of_number ht hk)
    rw [hread] at hsome
    cases hsome
  | empty hts hblanks hopening hclosing =>
    exact ⟨nofun, fun _ => ⟨_, rfl, _, _, _, _, _, hts, hopening, hblanks, hclosing, rfl⟩⟩
  | unexpected =>
    unfold Cursor.unexpected
    split <;> exact other nofun nofun
  | _ => exact other nofun nofun

theorem Binary64.isSome_of_plain {s : String} (h : Numeral.Plain s.toList) :
    (Scalar.ofText? s : Option Float).isSome = true := isSome_ofText? h.ofChars?

/-! ## Programs and parsers -/

/-- Whether a source is read as a program or piece by piece, in whatever order, the problems that come
    up are justified. None of them comes from putting rows together: however the entries of a matrix are
    read, the rows go together. -/
theorem Parser.problem_causes (source : String) :
    (∀ e, Program.parse (α := Float) source = .error e → e.Justified source) ∧
      (∀ (steps : List Step) (s : Step) (e : Problem),
        (((ofSource source).run Float steps).step Float s).1 = .error e → e.Justified source) ∧
      (∀ (steps : List Step) (kind : TokenKind) (e : Problem),
        ((ofSource source).run Float steps).cursor.expect kind = .error e → e.Justified source) ∧
      ∀ (nested : ExprReader Float) (n : Nat) (c c' : Cursor) (rows : List (List (Expr Float))) (closing : Token),
        (Grammar.entries nested n [] [] none c).result = .ok ((rows, closing), c') → (Grid.ofRows? rows).isSome = true := by
  have htokens (steps : List Step) : ((ofSource source).run Float steps).tokens = Token.scan source :=
    (run_within steps (Nat.zero_le _)).1
  have hplain : ∀ s : String, Numeral.Plain s.toList → (Scalar.ofText? s : Option Float).isSome = true :=
    fun _ => Binary64.isSome_of_plain
  refine ⟨fun e h => ?_, fun steps s e h => ?_, fun steps kind e h => ?_, fun nested n c c' rows closing h => ?_⟩
  · have hraised := Program.read_careful (α := Float) source
    rw [show (Program.read source).result = .error e from h] at hraised
    exact hraised.justified hplain
  · have hraised := step_raised h
    rw [htokens] at hraised
    exact hraised.justified hplain
  · have hraised := Cursor.expect_careful (α := Float) ((ofSource source).run Float steps).within_cursor kind
    rw [h, htokens] at hraised
    exact hraised.justified hplain
  · exact (Grammar.entriesRun h).level (Or.inl rfl)

/-- A matrix inside another one, with a blank between its brackets. -/
theorem Parser.problem_causes_nested :
    let e : Problem := ⟨.emptyMatrix, [⟨8, 11⟩]⟩
    Program.parse (α := Float) "A = [b, [ ]];" = .error e ∧ Token.EmptyBrackets (Token.scan "A = [b, [ ]];") ⟨8, 11⟩ := by
  intro e
  have hparse : Program.parse (α := Float) "A = [b, [ ]];" = .error e := by cbv
  obtain ⟨s, hspans, hbrackets⟩ := ((problem_causes "A = [b, [ ]];").1 e hparse).matrix rfl
  cases hspans
  exact ⟨hparse, hbrackets⟩

end SymbolicAlgebra
