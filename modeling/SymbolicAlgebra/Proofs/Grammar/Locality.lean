/-
  SymbolicAlgebra.Proofs.Grammar.Locality — what a parser reads depends on the text that it reads alone.

  Words are all that a reader goes by, and of what follows those it takes, it only needs to know where to
  stop (`Grammar.Local`). The tokens of a region are those of its text, cut out of the source and scanned
  anew, at other places (`Token.slice_of_piece`). So a piece of the grammar that is read somewhere in a
  source is read from its own text as well, to the end and with the same outcome (`step_local`).
-/

import SymbolicAlgebra.Binary64
import SymbolicAlgebra.Proofs.Grammar.Extents
import SymbolicAlgebra.Proofs.Grammar.Places
import SymbolicAlgebra.Proofs.Grammar.Soundness

namespace SymbolicAlgebra

/-! ## Words -/

namespace Grammar

variable {α : Type}

/-- What the reader makes of the words that it takes, it makes of them alone. -/
def Local {β γ : Type} (view : β → γ) (read : Cursor → Reading α (β × Cursor)) : Prop :=
  ∀ c b c', (read c).result = .ok (b, c') → ∀ d : Cursor, c.words = d.words ++ c'.words →
    ∃ b' d', (read d).result = .ok (b', d') ∧ d'.words = [] ∧ view b' = view b

variable [Scalar α]

theorem expr_local : Local Located.value (expr (α := α)) := by
  intro c e c' h d hd
  obtain ⟨t, hfits, hwords, hvalue⟩ := exprWithin_sound _ _ _ _ h
  have hd : d.words = t.words := List.append_cancel_right (hd.symm.trans hwords)
  obtain ⟨e', d', hread, he, hend⟩ := expr_of_all_words hfits hd hvalue
  exact ⟨e', d', hread, hend, he⟩

/-- An operand that begins with a bracket is read as a matrix. -/
theorem matrix_of_all_words {t : ParseTree} (h : t.Fits .operand) {c : Cursor} (hw : c.words = t.words)
    (hopen : c.peek? = some .openSquare) {g : Grid (Expr α)} (hv : t.expr? = some (.matrix g)) :
    ∃ m c', (matrix (α := α) c).result = .ok (m, c') ∧ m.value = g ∧ c'.words = [] := by
  have hr := reads_of_fits (α := α) h c.rest.length c [] (by simpa using hw) (Nat.le_succ _) (by simp)
  rw [hv] at hr
  obtain ⟨n, e, c', hread, he, hwords, -⟩ := hr
  change (operand (exprWithin c.rest.length) c).result = .ok (e, c') at hread
  unfold operand at hread
  rw [if_pos hopen] at hread
  obtain ⟨⟨m, c₁⟩, hm, hread⟩ := Logged.result_bind_eq_ok.mp hread
  cases hread
  exact ⟨m, _, hm, Expr.matrix.inj he, hwords⟩

omit [Scalar α] in
theorem peek?_of_matrix {nested : ExprReader α} {c c' : Cursor} {g : Located (Grid (Expr α))}
    (h : (matrixWith nested c).result = .ok (g, c')) : c.peek? = some .openSquare := by
  obtain ⟨opening, c₁, _, _, ho, hk, -⟩ := matrixWith_eq_ok h
  rw [Cursor.peek?_eq, (Cursor.next_eq_ok ho).1, List.head?_cons, Option.map_some, Token.kind_word, hk]

theorem matrix_local : Local Located.value (matrix (α := α)) := by
  intro c g c' h d hd
  obtain ⟨t, hfits, hwords, hvalue⟩ := matrix_sound (exprWithin_sound _) h
  have hd : d.words = t.words := List.append_cancel_right (hd.symm.trans hwords)
  have hopen : d.peek? = some .openSquare := by
    obtain ⟨w, ws, hhead, -⟩ := head_of_fits hfits
    rw [← peek?_of_matrix h, Cursor.peek?_eq, Cursor.peek?_eq, hd, hwords, hhead, List.cons_append]
    rfl
  obtain ⟨m, d', hread, hm, hend⟩ := matrix_of_all_words hfits hd hopen hvalue
  exact ⟨m, d', hread, hend, hm⟩

theorem definition_local : Local (fun d => (d.name, d.value)) (definition (α := α)) := by
  intro c d c' h c₁ hc₁
  obtain ⟨s, hfits, hwords, hname, hvalue⟩ := definition_sound h
  have hc₁ : c₁.words = s.words ++ [] := by
    rw [List.append_nil]
    exact List.append_cancel_right (hc₁.symm.trans hwords)
  have hr := definition_of_words (α := α) hfits hc₁
  rw [hvalue] at hr
  obtain ⟨d', c₁', hread, hname', hvalue', hend, -⟩ := hr
  refine ⟨d', c₁', hread, hend, ?_⟩
  show (d'.name, d'.value) = (d.name, d.value)
  rw [hname', hvalue', hname]

/-- The name of a definition is the first token. -/
theorem nameSpan_of_definition {c c' : Cursor} {d : Definition α} (h : (definition c).result = .ok (d, c')) :
    ∃ t, c.rest.find? (·.kind != .whitespace) = some t ∧ d.nameSpan = t.span := by
  obtain ⟨name, _, _, _, _, _, _, hname, -, -, -, rfl⟩ := definition_eq_ok h
  obtain ⟨-, hfirst, -⟩ := Cursor.split_of_next (Cursor.next_of_expect hname).1
  exact ⟨name, hfirst, rfl⟩

end Grammar

/-! ## Regions -/

theorem Cursor.Covers.whole {c c' : Cursor} {start stop : Nat} {first last : Token} (h : c.Covers c' start stop)
    (hend : c'.words = []) (hfirst : c.rest.head? = some first) (hk : first.kind ≠ .whitespace)
    (hlast : c.rest.getLast? = some last) (hk' : last.kind ≠ .whitespace) :
    start = first.span.start ∧ stop = last.span.stop := by
  obtain ⟨first', last', passed, hfind, hrest, -, rfl, rfl⟩ := h
  constructor
  · obtain ⟨more, hmore⟩ := List.head?_eq_some_iff.mp hfirst
    rw [hmore, List.find?_cons_of_pos (by simpa using hk)] at hfind
    cases hfind
    rfl
  · -- Only blanks are left, but the last token is none.
    have hnil : c'.rest = [] := by
      by_contra hne
      rw [hrest, List.append_cons, List.getLast?_append_of_ne_nil _ hne] at hlast
      have hblanks : ∀ t ∈ c'.rest, t.kind = .whitespace := by simpa [Cursor.words] using hend
      exact hk' (hblanks last (List.mem_of_getLast? hlast))
    rw [hrest, hnil, List.getLast?_concat] at hlast
    cases hlast
    rfl

/-- What is read somewhere in a source is read from the text of its region as well, from the first token
    to the end, after as many bytes less. -/
theorem Grammar.Local.alone {α β γ : Type} {read : Cursor → Reading α (β × Cursor)} {region : β → Span} {view : β → γ}
    (hlocal : Local view read) (hexact : Exact region read) {source : String} {c c' : Cursor} {b : β}
    (hc : c.rest <:+ Token.scan source) (h : (read c).result = .ok (b, c')) :
    ∃ text b' d' first, Source.Slice source (region b) text ∧ (read (Parser.ofSource text).cursor).result = .ok (b', d') ∧
      d'.words = [] ∧ view b' = view b ∧ region b = (region b').shift (region b).start ∧
      (Token.scan text).find? (·.kind != .whitespace) = some first ∧
      c.rest.find? (·.kind != .whitespace) = some (first.shift (region b).start) := by
  obtain ⟨blanks, piece, first, last, hrest, hblanks, hfirst, hk, hlast, hk', hstart, hstop⟩ := (hexact c b c' h).piece
  have hpiece : piece <:+: Token.scan source := List.IsInfix.trans ⟨blanks, c'.rest, hrest.symm⟩ hc.isInfix
  obtain ⟨text, hslice, hscan⟩ := Token.slice_of_piece hpiece hfirst hlast
  rw [hstart, hstop] at hslice
  rw [hstart] at hscan
  have hwords : c.words = (Parser.ofSource text).cursor.words ++ c'.words := by
    have hnone : blanks.filter (·.kind != .whitespace) = [] := List.filter_eq_nil_iff.mpr fun b hb => by simp [hblanks b hb]
    rw [Cursor.words, hrest, hscan, List.filter_append, List.filter_append, hnone, List.filter_map]
    simp [Cursor.words, Parser.cursor, Parser.ofSource, Function.comp_def]
  obtain ⟨b', d', hread, hend, hview⟩ := hlocal c b c' h _ hwords
  rw [hscan, List.head?_map, Option.map_eq_some_iff] at hfirst
  rw [hscan, List.getLast?_map, Option.map_eq_some_iff] at hlast
  obtain ⟨first, hfirst, rfl⟩ := hfirst
  obtain ⟨last, hlast, rfl⟩ := hlast
  obtain ⟨hstart', hstop'⟩ := (hexact _ b' d' hread).whole hend hfirst hk hlast hk'
  obtain ⟨more, hmore⟩ := List.head?_eq_some_iff.mp hfirst
  refine ⟨text, b', d', first, hslice, hread, hend, hview, ?_, ?_, ?_⟩
  · rw [Span.shift, hstart', hstop']
    exact (congrArg₂ Span.mk hstart hstop).symm
  · rw [hmore, List.find?_cons_of_pos (by simpa using hk)]
  · rw [List.find?_eq_some_iff_append]
    refine ⟨by simpa using hk, blanks, more.map (Token.shift (region b).start) ++ c'.rest, ?_, by simpa using hblanks⟩
    rw [hrest, hscan, hmore]
    simp

/-! ## Parsers -/

namespace Parser

/-- The answer after that many more bytes. -/
def Answer.shift {α : Type} (n : Nat) : Answer α → Answer α
  | token t => token (t.shift n)
  | kind k => kind k
  | eof s => eof (s.shift n)
  | expr e => expr { e with span := e.span.shift n }
  | matrix g => matrix { g with span := g.span.shift n }
  | definition d => definition { d with nameSpan := d.nameSpan.shift n, span := d.span.shift n }

/-- Whatever a parser has been asked before, what it reads of the source at some place, a parser reads of
    the text of that place alone: it takes all of it, and answers the same with every span moved there. -/
theorem step_local {α : Type} [Scalar α] (source : String) (steps : List Step) {s : Step} (hs : s.Attempts) {a : Answer α}
    (h : (((ofSource source).run α steps).step α s).1 = .ok a) : ∃ span text b p', a.region? = some span ∧
      Source.Slice source span text ∧ (ofSource text).step α s = (.ok b, p') ∧ p'.atEnd = true ∧ a = b.shift span.start := by
  obtain ⟨htokens, -⟩ := run_within (α := α) (p := ofSource source) steps (Nat.zero_le _)
  generalize (ofSource source).run α steps = p at h htokens
  have hc : p.cursor.rest <:+ Token.scan source := by
    rw [show Token.scan source = p.tokens from htokens.symm]
    exact List.drop_suffix _ _
  rcases hs with rfl | rfl | rfl
  · obtain ⟨e, c, rfl, hread⟩ := result_of_attempt h
    obtain ⟨text, e', d, -, hslice, hread', hend, hvalue, hregion, -⟩ :=
      Grammar.expr_local.alone Grammar.expr_exact hc hread
    obtain ⟨p', hattempt, hend⟩ := attempt_of_result Grammar.expr_exact hread' hend
    refine ⟨e.span, text, .expr e', p', rfl, hslice, ?_, hend, ?_⟩
    · rw [step, hattempt]
      rfl
    · rw [Answer.shift, hvalue, ← hregion]
  · obtain ⟨g, c, rfl, hread⟩ := result_of_attempt h
    obtain ⟨text, g', d, -, hslice, hread', hend, hvalue, hregion, -⟩ :=
      Grammar.matrix_local.alone Grammar.matrix_exact hc hread
    obtain ⟨p', hattempt, hend⟩ := attempt_of_result Grammar.matrix_exact hread' hend
    refine ⟨g.span, text, .matrix g', p', rfl, hslice, ?_, hend, ?_⟩
    · rw [step, hattempt]
      rfl
    · rw [Answer.shift, hvalue, ← hregion]
  · obtain ⟨d, c, rfl, hread⟩ := result_of_attempt h
    obtain ⟨text, d', c', first, hslice, hread', hend, hview, hregion, hfirst', hfirst⟩ :=
      Grammar.definition_local.alone Grammar.definition_exact hc hread
    obtain ⟨p', hattempt, hend⟩ := attempt_of_result Grammar.definition_exact hread' hend
    -- The name is the first token, here and there.
    obtain ⟨t, ht, hname⟩ := Grammar.nameSpan_of_definition hread
    obtain ⟨t', ht', hname'⟩ := Grammar.nameSpan_of_definition hread'
    have hspan : d.nameSpan = d'.nameSpan.shift d.span.start := by
      rw [hname, hname', Option.some.inj (ht.symm.trans hfirst), Option.some.inj (ht'.symm.trans hfirst')]
      rfl
    obtain ⟨hname, hvalue⟩ := Prod.mk.inj hview
    refine ⟨d.span, text, .definition d', p', rfl, hslice, ?_, hend, ?_⟩
    · rw [step, hattempt]
      rfl
    · rw [Answer.shift, ← hspan, ← hregion, hname, hvalue]

theorem step_local_matrix :
    let a : Answer Float := .matrix ⟨⟨1, 2, [.ofName "b", .ofName "c"]⟩, ⟨3, 8⟩⟩
    (((ofSource "é [b,c] d").run Float [.next]).step Float .matrix).1 = .ok a ∧
      ∃ span text b p', a.region? = some span ∧ Source.Slice "é [b,c] d" span text ∧
        (ofSource text).step Float .matrix = (.ok b, p') ∧ p'.atEnd = true ∧ a = b.shift span.start := by
  intro a
  have h : (((ofSource "é [b,c] d").run Float [.next]).step Float .matrix).1 = .ok a := by cbv
  exact ⟨h, step_local "é [b,c] d" [.next] (Or.inr (Or.inl rfl)) h⟩

end Parser

end SymbolicAlgebra
