/-
  SymbolicAlgebra.Proofs.Grammar.Problems — every problem points at text of its source.

  `Problem.Raised` lists the ways in which the reading of a source can fail, with the tokens that each
  way is about. A reader stays among the tokens of its source, and whenever it fails, it does so in one
  of these ways (`Grammar.Careful`); of the regions that a problem joins, `Cursor.Covers` says which
  tokens they begin and end with. That a matrix is rejected although its rows go together is none of the
  ways (`EntriesRun.level`).

  So the spans of a problem are as many as the labels of its cause and each stands between characters of
  the source (`Raised.points`), be the source read as a program or piece by piece (`problem_points`).
-/

import SymbolicAlgebra.Binary64
import SymbolicAlgebra.Proofs.Grammar.Extents
import SymbolicAlgebra.Proofs.Grammar.Places

namespace SymbolicAlgebra

/-! ## Regions of tokens -/

/-- The span of some tokens side by side. -/
def Token.Region (ts : List Token) (s : Span) : Prop :=
  ∃ piece first last, piece <:+: ts ∧ piece.head? = some first ∧ piece.getLast? = some last ∧
    s = ⟨first.span.start, last.span.stop⟩

namespace Token

variable {ts us : List Token} {s : Span} {t : Token}

theorem Region.mono (hts : us <:+ ts) (h : Region us s) : Region ts s := by
  obtain ⟨piece, first, last, hpiece, hends⟩ := h
  exact ⟨piece, first, last, hpiece.trans hts.isInfix, hends⟩

theorem region_of_mem (h : t ∈ ts) : Region ts t.span := by
  obtain ⟨before, after, rfl⟩ := List.append_of_mem h
  exact ⟨[t], t, t, ⟨before, after, by simp⟩, rfl, rfl, rfl⟩

/-- What a reader passes over is a region. -/
theorem region_of_covers {c c' : Cursor} {start stop : Nat} (h : c.Covers c' start stop) : Region c.rest ⟨start, stop⟩ := by
  obtain ⟨blanks, piece, first, last, hrest, -, hfirst, -, hlast, -, rfl, rfl⟩ := h.piece
  exact ⟨piece, first, last, ⟨blanks, c'.rest, hrest.symm⟩, hfirst, hlast, rfl⟩

end Token

/-! ## The ways to fail -/

/-- The ways in which the reading of a source over the numbers `α` can fail that has these tokens and ends
    at byte `stop`. -/
inductive Problem.Raised (α : Type) [Scalar α] (ts : List Token) (stop : Nat) : Problem → Prop
  | eof : Raised α ts stop ⟨.unexpectedEof, [⟨stop, stop⟩]⟩
  | unexpected {t : Token} (ht : t ∈ ts) (expected : List TokenKind) : Raised α ts stop (Cursor.unexpected t expected)
  /-- A name where the semicolon should be; the token may be a blank before the name. -/
  | unfinished {t : Token} (ht : t ∈ ts) : Raised α ts stop ⟨.unexpectedToken [.semicolon] .name, [t.span]⟩
  | unreadable {t : Token} (ht : t ∈ ts) (hk : t.kind = .number)
      (hread : (Scalar.ofText? (String.ofList (t.lexeme.toList.filter (· != '_'))) : Option α) = none) :
      Raised α ts stop ⟨.invalidNumber t.lexeme, [t.span]⟩
  | unterminated {t : Token} (ht : t ∈ ts) (hk : t.kind = .name) : Raised α ts stop ⟨.unterminatedName t.lexeme, [t.span]⟩
  | row {s : Span} (hs : Token.Region ts s) {expected found : Nat} (h : expected ≠ found) :
      Raised α ts stop ⟨.rowLength expected found, [s]⟩
  /-- A closing bracket right after the opening one, blanks aside. -/
  | empty {before blanks after : List Token} {opening closing : Token}
      (hts : ts = before ++ opening :: (blanks ++ closing :: after)) (hblanks : ∀ t ∈ blanks, t.kind = .whitespace)
      (hopening : opening.kind = .openSquare) (hclosing : closing.kind = .closeSquare) :
      Raised α ts stop ⟨.emptyMatrix, [⟨opening.span.start, closing.span.stop⟩]⟩
  | transpose {s : Span} (hs : Token.Region ts s) {sign : Token} (ht : sign ∈ ts) :
      Raised α ts stop ⟨.transposeNonMatrix, [s, sign.span]⟩
  | combination {s : Span} (hs : Token.Region ts s) (e : ArithError) : Raised α ts stop ⟨.invalidExpression e, [s]⟩
  | duplicate {s s' : Span} (hs : Token.Region ts s) (hs' : Token.Region ts s') (name : String) :
      Raised α ts stop ⟨.duplicateDefinition name, [s, s']⟩
  | selfReference {s : Span} (hs : Token.Region ts s) (name : String) : Raised α ts stop ⟨.selfReference name, [s]⟩

open Problem (Raised)

/-! ## Cursors among the tokens -/

namespace Cursor

variable {α : Type} [Scalar α] {ts : List Token} {stop : Nat} {c c' : Cursor}

/-- The cursor is among these tokens, and knows where the source ends. -/
def Within (ts : List Token) (stop : Nat) (c : Cursor) : Prop := c.rest <:+ ts ∧ c.stop = stop

theorem Within.eof (hc : c.Within ts stop) : Raised α ts stop c.unexpectedEof := by
  obtain ⟨-, rfl⟩ := hc
  exact .eof

theorem Within.region (hc : c.Within ts stop) {start last : Nat} (h : c.Covers c' start last) :
    Token.Region ts ⟨start, last⟩ := (Token.region_of_covers h).mono hc.1

theorem next_careful (hc : c.Within ts stop) :
    Ends (Raised α ts stop) (fun r => r.1 ∈ ts ∧ r.2.Within ts stop) c.next := by
  unfold next
  split
  · exact hc.eof
  · rename_i t rest hrest
    obtain ⟨-, -, blanks, hsplit, -⟩ := Token.split_blanks hrest
    have hsuffix : t :: rest <:+ ts := List.IsSuffix.trans ⟨blanks, hsplit.symm⟩ hc.1
    exact ⟨hsuffix.subset List.mem_cons_self, (List.suffix_cons t rest).trans hsuffix, hc.2⟩

theorem expect_careful (hc : c.Within ts stop) (kind : TokenKind) :
    Ends (Raised α ts stop) (fun r => r.1 ∈ ts ∧ r.1.kind = kind ∧ r.2.Within ts stop) (c.expect kind) := by
  unfold expect
  refine (next_careful hc).bind ?_
  rintro ⟨t, c'⟩ ⟨ht, hc'⟩
  dsimp only
  split
  · rename_i hk
    exact ⟨ht, hk, hc'⟩
  · exact .unexpected ht _

end Cursor

theorem Ends.result_bind {ν ε β γ : Type} {allowed : ε → Prop} {Q : β → Prop} {R : γ → Prop} {x : Logged ν ε β}
    {f : β → Logged ν ε γ} (h : Ends allowed Q x.result) (hf : ∀ b, Q b → Ends allowed R (f b).result) :
    Ends allowed R (x >>= f).result := by
  rw [Logged.result_bind]
  exact h.bind hf

/-! ## The rules of the grammar -/

namespace Grammar

open Cursor

variable {α : Type} [Scalar α]

/-- The reader stays among the tokens, and fails in one of the ways that there are. -/
def Careful {β : Type} (ts : List Token) (stop : Nat) (read : Cursor → Reading α (β × Cursor)) : Prop :=
  ∀ c, c.Within ts stop → Ends (Raised α ts stop) (fun r => r.2.Within ts stop) (read c).result

variable {ts : List Token} {stop : Nat} {nested : ExprReader α}

theorem checkRow_careful {s : Span} (hs : Token.Region ts s) (rows : List (List (Expr α))) (row : List (Expr α)) :
    Ends (Raised α ts stop) (fun _ => True) (checkRow rows row s) := by
  unfold checkRow
  split
  · split
    · trivial
    · rename_i hlength
      exact .row hs hlength
  · trivial

/-- The entries of a matrix. The row under way began before the cursor, among the same tokens. -/
theorem entries_careful (hexact : Exact Located.span nested) (hn : Careful ts stop nested) {n : Nat}
    {rows : List (List (Expr α))} {row : List (Expr α)} {start : Option Nat} {c : Cursor} (hc : c.Within ts stop)
    (hstart : ∀ s, start = some s → ∃ (c₀ : Cursor) (last : Nat), c₀.Within ts stop ∧ c₀.Covers c s last) :
    Ends (Raised α ts stop) (fun r => r.2.Within ts stop) (entries nested n rows row start c).result := by
  induction n generalizing rows row start c with
  | zero => exact hc.eof
  | succ n ih =>
    rw [result_entries_succ]
    refine (hn c hc).attach.bind ?_
    rintro ⟨e, c₁⟩ ⟨he, hc₁⟩
    refine (next_careful hc₁).attach.bind ?_
    rintro ⟨o, c₂⟩ ⟨ho, hmem, hc₂⟩
    have hentry := hexact c e c₁ he
    -- The row begins with this entry or began earlier.
    obtain ⟨c₀, hc₀, hrow⟩ : ∃ c₀ : Cursor, c₀.Within ts stop ∧ c₀.Covers c₁ (start.getD e.span.start) e.span.stop := by
      cases start with
      | none => exact ⟨c, hc, hentry⟩
      | some s =>
        obtain ⟨c₀, last, hc₀, hcovers⟩ := hstart s rfl
        exact ⟨c₀, hc₀, hcovers.trans hentry⟩
    have hregion := hc₀.region hrow
    unfold afterSign
    dsimp only
    split
    · refine ih hc₂ ?_
      rintro s ⟨⟩
      exact ⟨c₀, o.span.stop, hc₀, hrow.trans (covers_next ho)⟩
    · exact (checkRow_careful hregion _ _).bind fun _ _ => ih hc₂ (by simp)
    · exact (checkRow_careful hregion _ _).bind fun _ _ => hc₂
    · exact .unexpected hmem _

omit [Scalar α] in
/-- Rows that are read to the closing bracket go together. -/
theorem EntriesRun.level {rows all : List (List (Expr α))} {row : List (Expr α)} {start : Option Nat} {c c' : Cursor}
    {closing : Token} (h : EntriesRun nested rows row start c all closing c') (hrows : Level rows) :
    (Grid.ofRows? all).isSome = true := by
  have hne {row : List (Expr α)} {e : Expr α} : row ++ [e] ≠ [] :=
    List.append_ne_nil_of_right_ne_nil _ (List.cons_ne_nil _ _)
  induction h with
  | comma _ _ _ _ ih => exact ih hrows
  | semicolon _ _ _ hcheck _ ih => exact ih (Or.inr ((checkRow_iff hrows hne).mp hcheck))
  | close _ _ _ hcheck => exact (checkRow_iff hrows hne).mp hcheck

theorem matrixWith_careful (hexact : Exact Located.span nested) (hn : Careful ts stop nested) :
    Careful ts stop (matrixWith nested) := by
  intro c hc
  unfold matrixWith
  refine (next_careful hc).attach.result_bind ?_
  rintro ⟨o, c₁⟩ ⟨ho, hmem, hc₁⟩
  dsimp only
  split
  · exact .unexpected hmem _
  · rename_i hk
    have hk : o.kind = .openSquare := by simpa using hk
    split
    · rename_i hpeek
      refine (next_careful hc₁).attach.result_bind ?_
      rintro ⟨closing, c₂⟩ ⟨hclosing, -, -⟩
      obtain ⟨-, -, blanks₁, hrest, -⟩ := split_of_next ho
      obtain ⟨-, -, blanks₂, hrest₁, hblanks⟩ := split_of_next hclosing
      obtain ⟨before, hbefore⟩ := hc.1
      have hts : ts = (before ++ blanks₁) ++ o :: (blanks₂ ++ closing :: c₂.rest) := by
        rw [← hbefore, hrest, hrest₁, List.append_assoc]
      exact .empty hts hblanks hk (kind_of_peek? hpeek hclosing)
    · refine (entries_careful hexact hn hc₁ (by simp)).attach.result_bind ?_
      rintro ⟨⟨rows, closing⟩, c₂⟩ ⟨hentries, hc₂⟩
      have hlevel := (entriesRun hentries).level (Or.inl rfl)
      dsimp only
      split
      · exact hc₂
      · -- Each row was checked against the first, so they do make a grid.
        rename_i hnone
        simp [hnone] at hlevel

/-- The transpose signs after an operand, which began at `c₀`. -/
theorem transposes_careful {n : Nat} {e : Located (Expr α)} {c₀ c : Cursor} (hc₀ : c₀.Within ts stop) (hc : c.Within ts stop)
    (he : c₀.Covers c e.span.start e.span.stop) :
    Ends (Raised α ts stop) (fun r => r.2.Within ts stop) (transposes n e c).result := by
  induction n generalizing e c with
  | zero => exact hc
  | succ n ih =>
    unfold transposes
    split
    · exact hc
    · refine (next_careful hc).attach.result_bind ?_
      rintro ⟨sign, c₁⟩ ⟨hsign, hmem, hc₁⟩
      dsimp only
      split
      · exact ih hc₁ (he.trans (covers_next hsign))
      · exact .transpose (hc₀.region he) hmem

section
variable (hexact : Exact Located.span nested) (hn : Careful ts stop nested)
include hexact hn

theorem operand_careful : Careful ts stop (operand nested) := by
  intro c hc
  unfold operand
  split
  · exact (matrixWith_careful hexact hn c hc).result_bind fun _ hc₁ => hc₁
  · refine (next_careful hc).result_bind ?_
    rintro ⟨t, c₁⟩ ⟨hmem, hc₁⟩
    dsimp only
    split
    · rename_i hk
      have hnumber : Ends (Raised α ts stop) (fun _ => True) (number (α := α) t) := by
        unfold number
        split
        · trivial
        · rename_i hread
          exact .unreadable hmem hk hread
      exact hnumber.result_bind fun _ _ => hc₁
    · exact hc₁
    · exact (hn c₁ hc₁).result_bind fun _ hc₂ => (expect_careful hc₂ _).result_bind fun _ h => h.2.2
    · exact .unexpected hmem _

theorem postfixed_careful : Careful ts stop (postfixed nested) := by
  intro c hc
  refine (operand_careful hexact hn c hc).attach.result_bind ?_
  rintro ⟨e, c₁⟩ ⟨he, hc₁⟩
  exact transposes_careful hc hc₁ (operand_exact hexact c e c₁ he)

theorem unary_careful : Careful ts stop (unary nested) := by
  intro c hc
  unfold unary
  split
  · exact postfixed_careful hexact hn c hc
  · refine (next_careful hc).result_bind ?_
    rintro ⟨minus, c₁⟩ ⟨-, hc₁⟩
    dsimp only
    split
    · exact (next_careful hc₁).result_bind fun _ h => .unexpected h.1 _
    · exact (postfixed_careful hexact hn c₁ hc₁).result_bind fun _ hc₂ => hc₂

end

theorem skipSign_careful {c : Cursor} (hc : c.Within ts stop) :
    Ends (Raised α ts stop) (fun c' => c'.Within ts stop) (skipSign c) := by
  unfold skipSign
  split
  · exact hc
  · exact (next_careful hc).bind fun _ h => h.2

/-- Operators and operands after the value so far, which began at `c₀`. -/
theorem operations_careful {operator? : TokenKind → Option Operator} {read : ExprReader α}
    (hexact : Exact Located.span read) (hread : Careful ts stop read) {n : Nat} {e : Located (Expr α)} {c₀ c : Cursor}
    (hc₀ : c₀.Within ts stop) (hc : c.Within ts stop) (he : c₀.Covers c e.span.start e.span.stop) :
    Ends (Raised α ts stop) (fun r => r.2.Within ts stop) (operations operator? read n e c).result := by
  induction n generalizing e c with
  | zero => exact hc
  | succ n ih =>
    unfold operations
    split
    · exact hc
    · refine (skipSign_careful hc).attach.result_bind ?_
      rintro c₁ ⟨hskip, hc₁⟩
      refine (hread c₁ hc₁).attach.result_bind ?_
      rintro ⟨r, c₂⟩ ⟨hr, hc₂⟩
      have hall := skipSign_exact hskip he (hexact c₁ r c₂ hr)
      refine Ends.result_bind (Q := fun e' => e'.span = ⟨e.span.start, r.span.stop⟩) ?_ ?_
      · rw [result_combine]
        split
        · rfl
        · exact .combination (hc₀.region hall) _
      · rintro e' he'
        exact ih hc₂ (by rw [he']; exact hall)

section
variable (hexact : Exact Located.span nested) (hn : Careful ts stop nested)
include hexact hn

theorem term_careful : Careful ts stop (term nested) := by
  intro c hc
  refine (unary_careful hexact hn c hc).attach.result_bind ?_
  rintro ⟨e, c₁⟩ ⟨he, hc₁⟩
  exact operations_careful (unary_exact hexact) (unary_careful hexact hn) hc hc₁ (unary_exact hexact c e c₁ he)

theorem exprWith_careful : Careful ts stop (exprWith nested) := by
  intro c hc
  refine (term_careful hexact hn c hc).attach.result_bind ?_
  rintro ⟨e, c₁⟩ ⟨he, hc₁⟩
  exact operations_careful (term_exact hexact) (term_careful hexact hn) hc hc₁ (term_exact hexact c e c₁ he)

end

theorem exprWithin_careful (n : Nat) : Careful ts stop (exprWithin (α := α) n) := by
  induction n with
  | zero =>
    intro c hc
    exact hc.eof
  | succ n ih => exact exprWith_careful (exprWithin_exact n) ih

theorem expr_careful : Careful ts stop (expr (α := α)) := fun c => exprWithin_careful c.rest.length c

theorem matrix_careful : Careful ts stop (matrix (α := α)) := fun c =>
  matrixWith_careful (exprWithin_exact c.rest.length) (exprWithin_careful c.rest.length) c

/-- The places that a definition remembers are regions of the source. -/
def Placed (ts : List Token) (d : Definition α) : Prop := Token.Region ts d.nameSpan ∧ Token.Region ts d.span

theorem definition_careful {c : Cursor} (hc : c.Within ts stop) :
    Ends (Raised α ts stop) (fun r => Placed ts r.1 ∧ r.2.Within ts stop) (definition (α := α) c).result := by
  have hregion : ∀ r, (definition (α := α) c).result = .ok r → Token.Region ts r.1.span :=
    fun r h => hc.region (definition_exact c r.1 r.2 h)
  have hcareful : Ends (Raised α ts stop) (fun r => Token.Region ts r.1.nameSpan ∧ r.2.Within ts stop)
      (definition (α := α) c).result := by
    unfold definition
    refine (expect_careful hc .name).result_bind ?_
    rintro ⟨name, c₁⟩ ⟨hname, hkind, hc₁⟩
    dsimp only
    split
    · exact .unterminated hname hkind
    · refine (expect_careful hc₁ .assign).result_bind ?_
      rintro ⟨_, c₂⟩ ⟨-, -, hc₂⟩
      refine (expr_careful c₂ hc₂).result_bind ?_
      rintro ⟨e, c₃⟩ hc₃
      dsimp only
      split
      · rename_i hpeek
        -- The next name is left, so the token under the cursor is one of the source.
        cases hrest : c₃.rest with
        | nil => simp [peek?, skipBlanks, hrest] at hpeek
        | cons t rest =>
          have hspan : c₃.span = t.span := by simp [span, hrest]
          have hmem : t ∈ ts := hc₃.1.subset (by rw [hrest]; exact List.mem_cons_self)
          rw [hspan]
          exact .unfinished hmem
      · refine (expect_careful hc₃ .semicolon).result_bind ?_
        rintro ⟨_, c₄⟩ ⟨-, -, hc₄⟩
        exact ⟨Token.region_of_mem hname, hc₄⟩
  refine hcareful.attach.imp fun r h => ?_
  obtain ⟨hr, hname, hc'⟩ := h
  exact ⟨⟨hname, hregion r hr⟩, hc'⟩

end Grammar

/-! ## Programs -/

namespace Program

open Grammar (Placed)

variable {α : Type} [Scalar α] {ts : List Token} {stop : Nat}

theorem checkDefinition_careful {before : List (Definition α)} {d : Definition α} (hbefore : ∀ b ∈ before, Placed ts b)
    (hd : Placed ts d) : Ends (Raised α ts stop) (fun _ => True) (checkDefinition before d) := by
  unfold checkDefinition
  split
  · rename_i first hfirst
    exact .duplicate (hbefore first (List.mem_of_find?_eq_some hfirst)).2 hd.1 _
  · split
    · exact .selfReference hd.2 _
    · trivial

theorem readDefinitions_careful {n : Nat} {done : List (Definition α)} {c : Cursor} (hdone : ∀ d ∈ done, Placed ts d)
    (hc : c.Within ts stop) :
    Ends (Raised α ts stop) (fun ds => ∀ d ∈ ds, Placed ts d) (readDefinitions n done c).result := by
  induction n generalizing done c with
  | zero => exact hdone
  | succ n ih =>
    unfold readDefinitions
    split
    · exact hdone
    · refine (Grammar.definition_careful hc).result_bind ?_
      rintro ⟨d, c₁⟩ ⟨hd, hc₁⟩
      refine Ends.result_bind (Q := fun _ => True) trivial fun _ _ => ?_
      refine (checkDefinition_careful hdone hd).result_bind fun _ _ => ih ?_ hc₁
      exact List.forall_mem_append.mpr ⟨hdone, List.forall_mem_singleton.mpr hd⟩

/-- A value that cannot be computed is a problem of the place where its definition is written. -/
theorem blame_careful {β : Type} {d : Definition α} (hd : Placed ts d) (x : Except ArithError β) :
    Ends (Raised α ts stop) (fun _ => True) (blame d x) := by
  unfold blame
  split
  · trivial
  · exact .combination hd.2 _

theorem substituteInto_careful {source target : Definition α} (ht : Placed ts target) :
    Ends (Raised α ts stop) (Placed ts) (substituteInto source target).result := by
  unfold substituteInto
  split
  · refine Ends.result_bind (Q := fun _ => True) trivial fun _ _ => ?_
    exact (blame_careful ht _).result_bind fun _ _ => ht
  · exact ht

theorem eliminate_careful {ds : List (Definition α)} (hds : ∀ d ∈ ds, Placed ts d) (name : String) :
    Ends (Raised α ts stop) (fun es => ∀ e ∈ es, Placed ts e) (eliminate ds name).result := by
  unfold eliminate
  split
  · rw [Logged.result_mapM]
    exact Ends.mapM fun d hd => substituteInto_careful (hds d hd)
  · exact hds

theorem resolve_careful {ds : List (Definition α)} (hds : ∀ d ∈ ds, Placed ts d) :
    Ends (Raised α ts stop) (fun es => ∀ e ∈ es, Placed ts e) (resolve ds).result := by
  unfold resolve
  rw [Logged.result_foldlM]
  exact Ends.foldlM hds fun es hes name _ => eliminate_careful hes name

theorem finish_careful {d : Definition α} (hd : Placed ts d) : Ends (Raised α ts stop) (fun _ => True) (finish d).result := by
  unfold finish
  refine Ends.result_bind (Q := fun _ => True) trivial fun _ _ => ?_
  refine (blame_careful hd _).result_bind fun value _ => ?_
  refine (blame_careful hd _).result_bind fun _ _ => ?_
  exact Ends.result_bind (Q := fun _ => True) trivial fun _ _ => trivial

theorem read_careful (source : String) :
    Ends (Raised α (Token.scan source) (Parser.ofSource source).stop) (fun _ => True) (read (α := α) source).result := by
  unfold read
  have hstart : (Parser.ofSource source).cursor.Within (Token.scan source) (Parser.ofSource source).stop :=
    ⟨List.drop_suffix _ _, rfl⟩
  refine (readDefinitions_careful (List.forall_mem_nil _) hstart).result_bind fun ds hds => ?_
  have hsorted : ∀ d ∈ sortByName ds, Placed (Token.scan source) d := fun d hd => hds d (mem_sortByName.mp hd)
  refine (resolve_careful hsorted).result_bind fun es hes => ?_
  refine Ends.result_bind (Q := fun _ => True) ?_ fun _ _ => trivial
  rw [Logged.result_mapM]
  exact (Ends.mapM fun d hd => finish_careful (hes d hd)).imp fun _ _ => trivial

end Program

/-! ## Parsers -/

namespace Parser

variable {α : Type} [Scalar α] {p : Parser}

/-- The end of the last token is the end of the source. -/
theorem stop_ofSource (source : String) : (ofSource source).stop = source.utf8ByteSize := by
  have hcuts : Token.Cuts 0 source.toList (Token.scan source) := Token.cuts_scanFrom 0 source.toList
  obtain ⟨-, -, hlast⟩ := hcuts.contiguous
  rw [← Source.byteLength_toList]
  show ((Token.scan source).getLast?.map (·.span.stop)).getD 0 = _
  cases ht : (Token.scan source).getLast? with
  | none =>
    rw [List.getLast?_eq_none_iff.mp ht] at hcuts
    generalize source.toList = cs at hcuts ⊢
    cases hcuts
    rfl
  | some t => simpa using hlast t ht

theorem within_cursor (p : Parser) : p.cursor.Within p.tokens p.stop := ⟨List.drop_suffix _ _, rfl⟩

theorem next_raised {e : Problem} (h : p.next.1 = .error e) : Raised α p.tokens p.stop e := by
  have hnext := Cursor.next_careful (α := α) p.within_cursor
  unfold next at h
  split at h
  · cases h
  · rename_i hfails
    cases h
    rwa [hfails] at hnext

theorem attempt_raised {β : Type} {Q : β × Cursor → Prop} {read : Cursor → Reading α (β × Cursor)}
    (hread : Ends (Raised α p.tokens p.stop) Q (read p.cursor).result) {e : Problem} (h : (p.attempt read).1 = .error e) :
    Raised α p.tokens p.stop e := by
  unfold attempt at h
  split at h
  · cases h
  · rename_i hfails
    cases h
    rwa [hfails] at hread

/-- Whatever a parser fails in, it is one of the ways to fail. -/
theorem step_raised {s : Step} {e : Problem} (h : (p.step α s).1 = .error e) : Raised α p.tokens p.stop e := by
  have error_of_map {β γ : Type} {x : Except Problem β} {f : β → γ} (hx : x.map f = .error e) : x = .error e := by
    cases x with
    | ok b => cases hx
    | error e' =>
      cases hx
      rfl
  cases s with
  | next => exact next_raised (error_of_map h)
  | peek => cases h
  | eof => cases h
  | expr => exact attempt_raised (Grammar.expr_careful _ p.within_cursor) (error_of_map h)
  | matrix => exact attempt_raised (Grammar.matrix_careful _ p.within_cursor) (error_of_map h)
  | definition => exact attempt_raised (Grammar.definition_careful p.within_cursor) (error_of_map h)

end Parser

/-! ## Places in the source -/

/-- How many places a problem of this cause concerns. -/
def Cause.places : Cause → Nat
  | .duplicateDefinition _ => 2
  | .transposeNonMatrix => 2
  | _ => 1

theorem Cause.length_labels (c : Cause) : c.labels.length = c.places := by
  cases c <;> rfl

/-- The problem points at text of the source: there is a span for each label, every span is a region
    between characters, and the line and column are those of the character at which the first begins. The
    end of the source is the empty region there. -/
structure Problem.Points (e : Problem) (source : String) : Prop where
  labels : e.spans.length = e.cause.labels.length
  places : e.spans.length = e.cause.places
  slices : ∀ s ∈ e.spans, s.start ≤ s.stop ∧ s.stop ≤ source.utf8ByteSize ∧ ∃ text, Source.Slice source s text
  location : ∃ s before after, e.spans.head? = some s ∧ source = before ++ after ∧ s.start = before.utf8ByteSize ∧
    e.location source = Source.locationAfter before.toList
  eof : e.cause = .unexpectedEof → e.spans = [⟨source.utf8ByteSize, source.utf8ByteSize⟩]

namespace Problem

variable {α : Type} [Scalar α] {source : String} {e : Problem}

/-- The spans of a problem are regions of the tokens, or the end. -/
theorem Raised.regions {ts : List Token} {stop : Nat} (h : Raised α ts stop e) : e.spans.length = e.cause.places ∧
    (∀ s ∈ e.spans, s = ⟨stop, stop⟩ ∨ Token.Region ts s) ∧ (e.cause = .unexpectedEof → e.spans = [⟨stop, stop⟩]) := by
  have one {cause : Cause} {s : Span} (hplaces : cause.places = 1) (hcause : cause ≠ .unexpectedEof) (hs : Token.Region ts s) :
      [s].length = cause.places ∧ (∀ t ∈ [s], t = ⟨stop, stop⟩ ∨ Token.Region ts t) ∧
        (cause = .unexpectedEof → [s] = [⟨stop, stop⟩]) :=
    ⟨hplaces.symm, List.forall_mem_singleton.mpr (Or.inr hs), fun h => absurd h hcause⟩
  cases h with
  | eof => exact ⟨rfl, List.forall_mem_singleton.mpr (Or.inl rfl), fun _ => rfl⟩
  | unexpected ht =>
    unfold Cursor.unexpected
    split
    · exact one rfl nofun (Token.region_of_mem ht)
    · exact one rfl nofun (Token.region_of_mem ht)
  | unfinished ht => exact one rfl nofun (Token.region_of_mem ht)
  | unreadable ht => exact one rfl nofun (Token.region_of_mem ht)
  | unterminated ht => exact one rfl nofun (Token.region_of_mem ht)
  | row hs => exact one rfl nofun hs
  | @empty before blanks after opening closing hts =>
    refine one rfl nofun ⟨opening :: (blanks ++ [closing]), opening, closing, ⟨before, after, ?_⟩, rfl, ?_, rfl⟩
    · simp [hts]
    · rw [← List.cons_append, List.getLast?_concat]
  | transpose hs ht =>
    exact ⟨rfl, List.forall_mem_cons.mpr ⟨Or.inr hs, List.forall_mem_singleton.mpr (Or.inr (Token.region_of_mem ht))⟩, nofun⟩
  | combination hs => exact one rfl nofun hs
  | duplicate hs hs' =>
    exact ⟨rfl, List.forall_mem_cons.mpr ⟨Or.inr hs, List.forall_mem_singleton.mpr (Or.inr hs')⟩, nofun⟩
  | selfReference hs => exact one rfl nofun hs

theorem Raised.points (h : Raised α (Token.scan source) (Parser.ofSource source).stop e) : e.Points source := by
  obtain ⟨hplaces, hregions, heof⟩ := h.regions
  rw [Parser.stop_ofSource] at hregions heof
  have hslices : ∀ s ∈ e.spans, ∃ text, Source.Slice source s text := by
    intro s hs
    rcases hregions s hs with rfl | ⟨piece, first, last, hpiece, hfirst, hlast, rfl⟩
    · exact ⟨"", source, "", by simp, by simp⟩
    · obtain ⟨text, htext, -⟩ := Token.slice_of_piece hpiece hfirst hlast
      exact ⟨text, htext⟩
  refine ⟨by rw [hplaces, Cause.length_labels], hplaces, ?_, ?_, heof⟩
  · intro s hs
    obtain ⟨text, htext⟩ := hslices s hs
    exact ⟨htext.bounds.1, htext.bounds.2, text, htext⟩
  · obtain ⟨s, hs⟩ : ∃ s, e.spans.head? = some s := by
      cases hspans : e.spans with
      | nil =>
        rw [hspans] at hplaces
        cases hcause : e.cause <;> simp [hcause, Cause.places] at hplaces
      | cons s _ => exact ⟨s, rfl⟩
    obtain ⟨text, before, after, hsource, rfl⟩ := hslices s (List.mem_of_head? hs)
    rw [String.append_assoc] at hsource
    refine ⟨_, before, text ++ after, hs, hsource, rfl, ?_⟩
    rw [Problem.location, hs, Option.map_some, Option.getD_some, hsource, Source.location_append]

end Problem

/-- Whatever is wrong with a source, the problem points at its text, be the source read as a program or
    by a parser that has been asked for other things before. -/
theorem Parser.problem_points {α : Type} [Scalar α] (source : String) :
    (∀ e, Program.parse (α := α) source = .error e → e.Points source) ∧
      ∀ (steps : List Step) (s : Step) (e : Problem),
        (((ofSource source).run α steps).step α s).1 = .error e → e.Points source := by
  constructor
  · intro e h
    have hraised := Program.read_careful (α := α) source
    rw [show (Program.read source).result = .error e from h] at hraised
    exact hraised.points
  · intro steps s e h
    obtain ⟨htokens, -⟩ := run_within (α := α) (p := ofSource source) steps (Nat.zero_le _)
    have hraised := step_raised h
    rw [stop, htokens] at hraised
    exact hraised.points

theorem Parser.problem_points_redefined :
    let e : Problem := ⟨.duplicateDefinition "a", [⟨0, 6⟩, ⟨7, 8⟩]⟩
    Program.parse (α := Float) "a = b;\na = c;" = .error e ∧ e.Points "a = b;\na = c;" := by
  intro e
  have hparse : Program.parse (α := Float) "a = b;\na = c;" = .error e := by cbv
  exact ⟨hparse, (problem_points "a = b;\na = c;").1 e hparse⟩

end SymbolicAlgebra
