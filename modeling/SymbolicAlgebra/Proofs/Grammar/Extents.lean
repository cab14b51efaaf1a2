/-
  SymbolicAlgebra.Proofs.Grammar.Extents — what a reader passes over, and where that leaves a parser.

  A reader that succeeds has passed over the tokens from the first that is no blank up to some last
  one, which is no blank either; its region begins where the first begins and ends where the last
  ends (`Cursor.Covers`). Regions that meet make one region (`Covers.trans`), so each rule of the
  grammar covers what its parts cover together.

  A parser is asked for one thing after the other (`Parser.run`). Its tokens stay as they are and it
  never moves back or past them; whatever it is asked, it stands still or goes on to just after the
  last token of what it has read (`step_atomic`).
-/

import SymbolicAlgebra.Proofs.Grammar.Rules

namespace SymbolicAlgebra

/-! ## Regions -/

/-- The region runs from the first token at or after `c` that is no blank to the token before `c'`,
    which is no blank. -/
def Cursor.Covers (c c' : Cursor) (start stop : Nat) : Prop :=
  ∃ first last passed, c.rest.find? (·.kind != .whitespace) = some first ∧ c.rest = passed ++ last :: c'.rest ∧
    last.kind ≠ .whitespace ∧ first.span.start = start ∧ last.span.stop = stop

theorem Token.split_blanks {ts rest : List Token} {t : Token} (h : ts.dropWhile (·.kind == .whitespace) = t :: rest) :
    t.kind ≠ .whitespace ∧ ts.find? (·.kind != .whitespace) = some t ∧
      ∃ blanks, ts = blanks ++ t :: rest ∧ ∀ b ∈ blanks, b.kind = .whitespace := by
  induction ts with
  | nil => cases h
  | cons x ts ih =>
    by_cases hx : x.kind = .whitespace
    · rw [List.dropWhile_cons_of_pos (by simp [hx])] at h
      obtain ⟨hk, hfind, blanks, rfl, hblanks⟩ := ih h
      exact ⟨hk, by simpa [List.find?_cons, hx] using hfind, x :: blanks, rfl, List.forall_mem_cons.mpr ⟨hx, hblanks⟩⟩
    · rw [List.dropWhile_cons_of_neg (by simp [hx])] at h
      cases h
      exact ⟨hx, by simp [hx], [], rfl, List.forall_mem_nil _⟩

namespace Cursor

variable {c c₁ c₂ : Cursor}

/-- What is read next begins where the rest begins, so two regions make one. -/
theorem Covers.trans {start start' stop stop' : Nat} (h : c.Covers c₁ start stop) (h' : c₁.Covers c₂ start' stop') :
    c.Covers c₂ start stop' := by
  obtain ⟨first, last, passed, hfirst, hrest, -, hstart, -⟩ := h
  obtain ⟨_, last', passed', -, hrest', hlast', -, hstop'⟩ := h'
  exact ⟨first, last', passed ++ last :: passed', hfirst, by simp [hrest, hrest'], hlast', hstart, hstop'⟩

/-- What is passed over are blanks and the tokens of the region, which begin and end with tokens that are
    no blanks. -/
theorem Covers.piece {start stop : Nat} (h : c.Covers c₁ start stop) : ∃ blanks piece first last,
    c.rest = blanks ++ piece ++ c₁.rest ∧ (∀ b ∈ blanks, b.kind = .whitespace) ∧
      piece.head? = some first ∧ first.kind ≠ .whitespace ∧ piece.getLast? = some last ∧ last.kind ≠ .whitespace ∧
      first.span.start = start ∧ last.span.stop = stop := by
  obtain ⟨first, last, passed, hfirst, hrest, hlast, hstart, hstop⟩ := h
  -- The last token is no blank, so the first one that is no blank is at or before it.
  have hfind : (passed ++ [last]).find? (·.kind != .whitespace) = some first := by
    have hsome : ((passed ++ [last]).find? (·.kind != .whitespace)).isSome = true :=
      List.find?_isSome.mpr ⟨last, by simp, by simpa using hlast⟩
    rw [hrest, List.append_cons, List.find?_append] at hfirst
    rwa [Option.or_of_isSome hsome] at hfirst
  obtain ⟨hk, blanks, after, hsplit, hblanks⟩ := List.find?_eq_some_iff_append.mp hfind
  refine ⟨blanks, first :: after, first, last, ?_, by simpa using hblanks, rfl, by simpa using hk, ?_, hlast, hstart, hstop⟩
  · rw [hrest, List.append_cons passed, hsplit]
  · have hends := congrArg List.getLast? hsplit
    rw [List.getLast?_concat, List.getLast?_append_cons] at hends
    exact hends.symm

/-- The token that is read is the first one that is no blank. -/
theorem split_of_next {t : Token} (h : c.next = .ok (t, c₁)) :
    t.kind ≠ .whitespace ∧ c.rest.find? (·.kind != .whitespace) = some t ∧
      ∃ blanks, c.rest = blanks ++ t :: c₁.rest ∧ ∀ b ∈ blanks, b.kind = .whitespace := by
  unfold next at h
  split at h
  · cases h
  · rename_i hrest
    cases h
    exact Token.split_blanks hrest

theorem covers_next {t : Token} (h : c.next = .ok (t, c₁)) : c.Covers c₁ t.span.start t.span.stop := by
  obtain ⟨hk, hfind, blanks, hsplit, -⟩ := split_of_next h
  exact ⟨t, t, blanks, hfind, hsplit, hk, rfl, rfl⟩

theorem covers_expect {kind : TokenKind} {t : Token} (h : c.expect kind = .ok (t, c₁)) : c.Covers c₁ t.span.start t.span.stop :=
  covers_next (next_of_expect h).1

end Cursor

/-! ## The rules of the grammar -/

namespace Grammar

variable {α : Type}

/-- The region of what the reader returns is what it passes over. -/
def Exact {β : Type} (region : β → Span) (read : Cursor → Reading α (β × Cursor)) : Prop :=
  ∀ c b c', (read c).result = .ok (b, c') → c.Covers c' (region b).start (region b).stop

variable {nested : ExprReader α}

/-- The entries of a matrix end with the closing bracket. -/
theorem EntriesRun.covers (hn : Exact Located.span nested) {rows all : List (List (Expr α))} {row : List (Expr α)}
    {start : Option Nat} {c c' : Cursor} {closing : Token} (h : EntriesRun nested rows row start c all closing c') :
    ∃ start, c.Covers c' start closing.span.stop := by
  induction h with
  | comma he ho _ _ ih =>
    obtain ⟨first, hmore⟩ := ih
    exact ⟨_, ((hn _ _ _ he).trans (Cursor.covers_next ho)).trans hmore⟩
  | semicolon he ho _ _ _ ih =>
    obtain ⟨first, hmore⟩ := ih
    exact ⟨_, ((hn _ _ _ he).trans (Cursor.covers_next ho)).trans hmore⟩
  | close he ho _ _ => exact ⟨_, (hn _ _ _ he).trans (Cursor.covers_next ho)⟩

theorem matrixWith_exact (hn : Exact Located.span nested) : Exact Located.span (matrixWith nested) := by
  intro c g c' h
  obtain ⟨opening, c₁, rows, closing, hopening, -, hentries, -, hspan⟩ := matrixWith_eq_ok h
  obtain ⟨first, hentries⟩ := hentries.covers hn
  rw [hspan]
  exact (Cursor.covers_next hopening).trans hentries

theorem TransposesRun.covers {e e' : Located (Expr α)} {c₀ c c' : Cursor} (h : TransposesRun e c e' c')
    (he : c₀.Covers c e.span.start e.span.stop) : c₀.Covers c' e'.span.start e'.span.stop := by
  induction h with
  | stop => exact he
  | quote hsign _ _ _ ih => exact ih (he.trans (Cursor.covers_next hsign))

variable [Scalar α]

theorem operand_exact (hn : Exact Located.span nested) : Exact Located.span (operand nested) := by
  intro c e c' h
  cases operand_cases h with
  | matrix hg => exact matrixWith_exact hn c _ c' hg
  | number ht _ _ => exact Cursor.covers_next ht
  | name ht _ => exact Cursor.covers_next ht
  | paren ht _ hinner hclosing =>
    exact (Cursor.covers_next ht).trans ((hn _ _ _ hinner).trans (Cursor.covers_expect hclosing))

theorem postfixed_exact (hn : Exact Located.span nested) : Exact Located.span (postfixed nested) := by
  intro c e c' h
  obtain ⟨⟨e₁, c₁⟩, he, h⟩ := Logged.result_bind_eq_ok.mp h
  exact (transposesRun h).covers (operand_exact hn c e₁ c₁ he)

theorem unary_exact (hn : Exact Located.span nested) : Exact Located.span (unary nested) := by
  intro c e c' h
  cases unary_cases h with
  | plain h => exact postfixed_exact hn c e c' h
  | minus hminus _ h =>
    have hvalue := postfixed_exact hn _ _ c' h
    exact (Cursor.covers_next hminus).trans hvalue

omit [Scalar α] in
/-- The sign of an operator lies between the operands, if it is not missing. -/
theorem skipSign_exact {c₀ c c₁ c' : Cursor} {start start' stop stop' : Nat} (h : skipSign c = .ok c₁)
    (hl : c₀.Covers c start stop) (hr : c₁.Covers c' start' stop') : c₀.Covers c' start stop' := by
  rcases skipSign_eq_ok h with ⟨-, rfl⟩ | ⟨-, sign, hsign⟩
  · exact hl.trans hr
  · exact hl.trans ((Cursor.covers_next hsign).trans hr)

theorem OperationsRun.covers {operator? : TokenKind → Option Operator} {read : ExprReader α}
    (hread : Exact Located.span read) {e e' : Located (Expr α)} {c₀ c c' : Cursor}
    (h : OperationsRun operator? read e c e' c') (he : c₀.Covers c e.span.start e.span.stop) :
    c₀.Covers c' e'.span.start e'.span.stop := by
  induction h with
  | stop => exact he
  | operator _ hskip hr _ _ ih =>
    have hoperand := hread _ _ _ hr
    exact ih (skipSign_exact hskip he hoperand)

theorem term_exact (hn : Exact Located.span nested) : Exact Located.span (term nested) := by
  intro c e c' h
  obtain ⟨⟨e₁, c₁⟩, he, h⟩ := Logged.result_bind_eq_ok.mp h
  exact (operationsRun h).covers (unary_exact hn) (unary_exact hn c e₁ c₁ he)

theorem exprWith_exact (hn : Exact Located.span nested) : Exact Located.span (exprWith nested) := by
  intro c e c' h
  obtain ⟨⟨e₁, c₁⟩, he, h⟩ := Logged.result_bind_eq_ok.mp h
  exact (operationsRun h).covers (term_exact hn) (term_exact hn c e₁ c₁ he)

theorem exprWithin_exact (n : Nat) : Exact Located.span (exprWithin (α := α) n) := by
  induction n with
  | zero =>
    intro c e c' h
    cases h
  | succ n ih => exact exprWith_exact ih

theorem expr_exact : Exact Located.span (expr (α := α)) := fun c => exprWithin_exact c.rest.length c

theorem matrix_exact : Exact Located.span (matrix (α := α)) := fun c => matrixWith_exact (exprWithin_exact c.rest.length) c

theorem definition_exact : Exact Definition.span (definition (α := α)) := by
  intro c d c' h
  obtain ⟨name, c₁, assign, c₂, e, c₃, semicolon, hname, hassign, he, hsemicolon, rfl⟩ := definition_eq_ok h
  exact (Cursor.covers_expect hname).trans ((Cursor.covers_expect hassign).trans
    ((expr_exact c₂ e c₃ he).trans (Cursor.covers_expect hsemicolon)))

end Grammar

/-! ## A parser that is asked for one thing after the other -/

namespace Parser

/-- What a parser can be asked for. -/
inductive Step where
  | next
  | peek
  | eof
  | expr
  | matrix
  | definition
  deriving Repr, DecidableEq

/-- The parser tries to read a piece of the grammar. -/
def Step.Attempts (s : Step) : Prop := s = .expr ∨ s = .matrix ∨ s = .definition

/-- What a parser answers. -/
inductive Answer (α : Type) where
  | token (t : Token)
  | kind (k : Option TokenKind)
  | eof (span : Span)
  | expr (e : Located (Expr α))
  | matrix (g : Located (Grid (Expr α)))
  | definition (d : Definition α)

/-- The region of a piece of the grammar. -/
def Answer.region? {α : Type} : Answer α → Option Span
  | expr e => some e.span
  | matrix g => some g.span
  | definition d => some d.span
  | _ => none

section
variable (α : Type) [Scalar α]

/-- The answer to what a parser is asked, and the parser afterwards. -/
def step (p : Parser) : Step → Except Problem (Answer α) × Parser
  | .next => (p.next.1.map .token, p.next.2)
  | .peek => (.ok (.kind p.peek?), p)
  | .eof => (.ok (.eof p.eofSpan), p)
  | .expr => ((p.attempt Grammar.expr).1.map .expr, (p.attempt (Grammar.expr (α := α))).2)
  | .matrix => ((p.attempt Grammar.matrix).1.map .matrix, (p.attempt (Grammar.matrix (α := α))).2)
  | .definition => ((p.attempt Grammar.definition).1.map .definition, (p.attempt (Grammar.definition (α := α))).2)

/-- The parser after all steps. -/
def run (p : Parser) (steps : List Step) : Parser := steps.foldl (fun p s => (p.step α s).2) p

end

variable {p p' : Parser}

/-- The parser has moved on to just after the last token of a region that begins with the first token
    it had left. -/
def Advances (p p' : Parser) (span : Span) : Prop :=
  p'.tokens = p.tokens ∧ p.position < p'.position ∧ p'.position ≤ p'.tokens.length ∧
    ∃ first last, (p.tokens.drop p.position).find? (·.kind != .whitespace) = some first ∧
      p.tokens[p'.position - 1]? = some last ∧ last.kind ≠ .whitespace ∧ span = ⟨first.span.start, last.span.stop⟩

theorem advances_of_covers {c : Cursor} {span : Span} (h : p.cursor.Covers c span.start span.stop) :
    p.Advances (p.moveTo c) span := by
  obtain ⟨first, last, passed, hfirst, hrest, hlast, hstart, hstop⟩ := h
  have hrest : p.tokens.drop p.position = passed ++ last :: c.rest := hrest
  have hlength := congrArg List.length hrest
  simp only [List.length_drop, List.length_append, List.length_cons] at hlength
  have hposition : (p.moveTo c).position = p.position + passed.length + 1 := by
    show p.tokens.length - c.rest.length = _
    omega
  refine ⟨rfl, by omega, ?_, first, last, hfirst, ?_, hlast, ?_⟩
  · show p.tokens.length - c.rest.length ≤ p.tokens.length
    omega
  · rw [hposition, Nat.add_sub_cancel, ← List.getElem?_drop, hrest, List.getElem?_append_right (le_refl _)]
    simp
  · rw [hstart, hstop]

/-- Moving to a place behind the cursor leaves what is left there. -/
theorem rest_moveTo {c : Cursor} {start stop : Nat} (h : p.cursor.Covers c start stop) : (p.moveTo c).cursor.rest = c.rest := by
  obtain ⟨_, last, passed, -, hrest, -, -, -⟩ := h
  have hrest : p.tokens.drop p.position = passed ++ last :: c.rest := hrest
  have htokens : p.tokens = (p.tokens.take p.position ++ (passed ++ [last])) ++ c.rest := by
    conv_lhs => rw [← List.take_append_drop p.position p.tokens, hrest]
    simp
  show p.tokens.drop (p.tokens.length - c.rest.length) = c.rest
  rw [htokens, List.length_append, Nat.add_sub_cancel, List.drop_left]

variable {α : Type} {s : Step}

section
variable {β : Type} {read : Cursor → Reading α (β × Cursor)}

/-- An answer about a piece of the grammar comes from its reader. -/
theorem result_of_attempt {answer : β → Answer α} {a : Answer α} (h : (p.attempt read).1.map answer = .ok a) :
    ∃ b c, a = answer b ∧ (read p.cursor).result = .ok (b, c) := by
  unfold attempt at h
  split at h
  · rename_i b c hread
    cases h
    exact ⟨b, c, rfl, hread⟩
  · cases h

/-- A reader that takes all words takes the parser to the end. -/
theorem attempt_of_result {region : β → Span} (hexact : Grammar.Exact region read) {b : β} {c : Cursor}
    (h : (read p.cursor).result = .ok (b, c)) (hend : c.words = []) :
    ∃ p', p.attempt read = (.ok b, p') ∧ p'.atEnd = true := by
  refine ⟨p.moveTo c, by rw [attempt, h], ?_⟩
  rw [atEnd, Cursor.atEnd_iff, Cursor.words, rest_moveTo (hexact _ b c h)]
  exact hend

end

/-- All that a step can do: leave the parser alone, run to the end without finding a token, or go on
    to just after what was read. -/
inductive Moves (p : Parser) (s : Step) : Except Problem (Answer α) → Parser → Prop
  | looks {r : Except Problem (Answer α)} (hs : ¬ s.Attempts) : Moves p s r p
  | fails {e : Problem} (hs : s.Attempts) : Moves p s (.error e) p
  | ends {e : Problem} (hs : s = .next) : Moves p s (.error e) { p with position := p.tokens.length }
  | token {t : Token} {p' : Parser} (hs : s = .next) (h : p.Advances p' t.span) : Moves p s (.ok (.token t)) p'
  | piece {a : Answer α} {span : Span} {p' : Parser} (hs : s.Attempts) (ha : a.region? = some span)
      (h : p.Advances p' span) : Moves p s (.ok a) p'

/-- Trying to read a piece of the grammar moves the parser behind it, or not at all. -/
theorem moves_attempt {β : Type} {region : β → Span} {read : Cursor → Reading α (β × Cursor)}
    (hread : Grammar.Exact region read) {answer : β → Answer α} (hanswer : ∀ b, (answer b).region? = some (region b))
    (p : Parser) (hs : s.Attempts) : p.Moves s ((p.attempt read).1.map answer) (p.attempt read).2 := by
  unfold attempt
  split
  · rename_i b c h
    exact .piece hs (hanswer b) (advances_of_covers (hread p.cursor b c h))
  · exact .fails hs

theorem moves_next (p : Parser) : p.Moves (α := α) .next (p.next.1.map .token) p.next.2 := by
  unfold next
  split
  · rename_i t c h
    exact .token rfl (advances_of_covers (Cursor.covers_next h))
  · exact .ends rfl

theorem step_moves [Scalar α] (p : Parser) (s : Step) : p.Moves s (p.step α s).1 (p.step α s).2 := by
  cases s with
  | next => exact moves_next p
  | peek => exact .looks (by simp [Step.Attempts])
  | eof => exact .looks (by simp [Step.Attempts])
  | expr => exact moves_attempt Grammar.expr_exact (fun _ => rfl) p (Or.inl rfl)
  | matrix => exact moves_attempt Grammar.matrix_exact (fun _ => rfl) p (Or.inr (Or.inl rfl))
  | definition => exact moves_attempt Grammar.definition_exact (fun _ => rfl) p (Or.inr (Or.inr rfl))

namespace Moves

variable {r : Except Problem (Answer α)}

/-- A step keeps the tokens and does not move back or past them. -/
theorem forward (hp : p.position ≤ p.tokens.length) (h : p.Moves s r p') :
    p'.tokens = p.tokens ∧ p.position ≤ p'.position ∧ p'.position ≤ p'.tokens.length := by
  cases h with
  | looks => exact ⟨rfl, le_refl _, hp⟩
  | fails => exact ⟨rfl, le_refl _, hp⟩
  | ends => exact ⟨rfl, hp, le_refl _⟩
  | token _ h => exact ⟨h.1, h.2.1.le, h.2.2.1⟩
  | piece _ _ h => exact ⟨h.1, h.2.1.le, h.2.2.1⟩

theorem stays_of_error (hs : s.Attempts) (h : p.Moves s r p') {e : Problem} (hr : r = .error e) : p' = p := by
  cases h with
  | looks => rfl
  | fails => rfl
  | ends hnext => simp [hnext, Step.Attempts] at hs
  | token => cases hr
  | piece => cases hr

theorem advances_of_ok (hs : s.Attempts) (h : p.Moves s r p') {a : Answer α} (hr : r = .ok a) :
    ∃ span, a.region? = some span ∧ p.Advances p' span := by
  cases h with
  | looks hlooks => exact absurd hs hlooks
  | fails => cases hr
  | ends => cases hr
  | token hnext => simp [hnext, Step.Attempts] at hs
  | piece _ ha h =>
    cases hr
    exact ⟨_, ha, h⟩

end Moves

variable [Scalar α]

/-- However many steps a parser takes, it keeps its tokens and stays among them. -/
theorem run_within (steps : List Step) (hp : p.position ≤ p.tokens.length) :
    (p.run α steps).tokens = p.tokens ∧ (p.run α steps).position ≤ p.tokens.length := by
  induction steps generalizing p with
  | nil => exact ⟨rfl, hp⟩
  | cons s steps ih =>
    obtain ⟨htokens, -, hwithin⟩ := (step_moves (α := α) p s).forward hp
    show ((p.step α s).2.run α steps).tokens = p.tokens ∧ ((p.step α s).2.run α steps).position ≤ p.tokens.length
    rw [← htokens]
    exact ih hwithin

/-- Whatever a parser has been asked before, the next step keeps its tokens and does not move back or
    past them. Looking does not move; a piece of the grammar that cannot be read does not either; one
    that can be read leaves the parser behind its last token, and its region is what was passed over. -/
theorem step_atomic (source : String) (steps : List Step) (s : Step) :
    let p := (ofSource source).run α steps
    let p' := (p.step α s).2
    p.tokens = Token.scan source ∧ p'.tokens = Token.scan source ∧
      p.position ≤ p'.position ∧ p'.position ≤ (Token.scan source).length ∧
      (s = .peek ∨ s = .eof → p' = p) ∧
      (s.Attempts → ∀ e, (p.step α s).1 = .error e → p' = p) ∧
      (s.Attempts → ∀ a, (p.step α s).1 = .ok a → ∃ span, a.region? = some span ∧ p.Advances p' span) := by
  intro p p'
  have hrun : p.tokens = Token.scan source ∧ p.position ≤ (Token.scan source).length :=
    run_within steps (Nat.zero_le _)
  have hmoves := step_moves (α := α) p s
  obtain ⟨htokens, hforward, hwithin⟩ := hmoves.forward (hrun.1 ▸ hrun.2)
  rw [htokens, hrun.1] at hwithin
  refine ⟨hrun.1, htokens.trans hrun.1, hforward, hwithin, ?_, ?_, ?_⟩
  · intro hlook
    rcases hlook with rfl | rfl <;> rfl
  · intro hs e
    exact hmoves.stays_of_error hs
  · intro hs a
    exact hmoves.advances_of_ok hs

end Parser

end SymbolicAlgebra
