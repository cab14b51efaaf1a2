/-
  SymbolicAlgebra.Proofs.Grammar.Soundness — what is read is written by the grammar.

  Whenever a reader succeeds, the words that it passed over are those of a tree that fits, and its
  value is the value of the tree. With the other direction, a source that can be read has a parse
  tree for each of its definitions, and every such tree comes to what was read.
-/

import SymbolicAlgebra.Proofs.Grammar.Rules

namespace SymbolicAlgebra

open ParseTree (Phrase)

variable {α : Type} [Scalar α]

theorem Word.eq_sign {w : Word} {k : TokenKind} (h : w.kind = k) (hname : k ≠ .name) (hnumber : k ≠ .number) :
    w = .sign k := by
  cases w with
  | name => exact absurd h.symm hname
  | number => exact absurd h.symm hnumber
  | sign k' => rw [← h]; rfl

theorem Token.word_of_kind {t : Token} {k : TokenKind} (h : t.kind = k) (hname : k ≠ .name) (hnumber : k ≠ .number) :
    t.word = .sign k := Word.eq_sign (by rw [t.kind_word, h]) hname hnumber

/-- Two operands and an operator have a value if both operands have one and it can be applied to these. -/
theorem Operator.combined_eq_some {op : Operator} {x y : Option (Expr α)} {e : Expr α} :
    (do (op.apply (← x) (← y)).toOption) = some e ↔ ∃ a b, x = some a ∧ y = some b ∧ op.apply a b = .ok e := by
  simp only [Option.bind_eq_bind, Option.bind_eq_some_iff, toOption_eq_some, exists_and_left]

namespace Grammar

/-- The words from `ws` on up to the cursor are those of a tree with this value. -/
def Spelled (p : Phrase) (ws : List Word) (e : Located (Expr α)) (c : Cursor) : Prop :=
  ∃ t : ParseTree, t.Fits p ∧ ws = t.words ++ c.words ∧ t.expr? = some e.value

/-- All that the reader accepts is written by the grammar. -/
def Sound (p : Phrase) (read : ExprReader α) : Prop :=
  ∀ c e c', (read c).result = .ok (e, c') → Spelled p c.words e c'

variable {nested : ExprReader α}

/-! ## Matrices -/

theorem wordsOfRow_cons (t : ParseTree) {ts : List ParseTree} (h : ts ≠ []) :
    ParseTree.wordsOfRow (t :: ts) = t.words ++ .sign .comma :: ParseTree.wordsOfRow ts := by
  rw [ParseTree.wordsOfRow, ParseTree.separator, if_neg (by simpa using h), List.singleton_append]

theorem wordsOfRows_cons (ts : List ParseTree) {tss : List (List ParseTree)} (h : tss ≠ []) :
    ParseTree.wordsOfRows (ts :: tss) = ParseTree.wordsOfRow ts ++ .sign .semicolon :: ParseTree.wordsOfRows tss := by
  rw [ParseTree.wordsOfRows, ParseTree.separator, if_neg (by simpa using h), List.singleton_append]

theorem EntriesRun.sound (hn : Sound .expr nested) {rows all : List (List (Expr α))} {row : List (Expr α)}
    {start : Option Nat} {c c' : Cursor} {closing : Token} (h : EntriesRun nested rows row start c all closing c') :
    ∃ ts tss, ts ≠ [] ∧ (∀ r ∈ tss, r ≠ []) ∧ (∀ t ∈ ts, ParseTree.Fits .expr t) ∧
      (∀ r ∈ tss, ∀ t ∈ r, ParseTree.Fits .expr t) ∧
      c.words = ParseTree.wordsOfRows (ts :: tss) ++ .sign .closeSquare :: c'.words ∧ all? rows row ts tss = some all := by
  -- From the closing bracket back: an entry is put in front of the row that begins after it.
  induction h with
  | comma he ho hk _ ih =>
    obtain ⟨t, ht, hw, hv⟩ := hn _ _ _ he
    obtain ⟨ho, -⟩ := Cursor.next_eq_ok ho
    obtain ⟨ts, tss, hne, hnes, hf, hfs, hw', hall⟩ := ih
    refine ⟨t :: ts, tss, List.cons_ne_nil _ _, hnes, List.forall_mem_cons.mpr ⟨ht, hf⟩, hfs, ?_, ?_⟩
    · rw [hw, ho, Token.word_of_kind hk (by decide) (by decide), hw', ParseTree.wordsOfRows, ParseTree.wordsOfRows,
        wordsOfRow_cons t hne]
      simp
    · rw [all?_cons, hv, Option.bind_some, hall]
  | semicolon he ho hk _ _ ih =>
    obtain ⟨t, ht, hw, hv⟩ := hn _ _ _ he
    obtain ⟨ho, -⟩ := Cursor.next_eq_ok ho
    obtain ⟨ts, tss, hne, hnes, hf, hfs, hw', hall⟩ := ih
    refine ⟨[t], ts :: tss, List.cons_ne_nil _ _, List.forall_mem_cons.mpr ⟨hne, hnes⟩, by simpa using ht,
      List.forall_mem_cons.mpr ⟨hf, hfs⟩, ?_, ?_⟩
    · rw [hw, ho, Token.word_of_kind hk (by decide) (by decide), hw', wordsOfRows_cons [t] (List.cons_ne_nil _ _)]
      simp [ParseTree.wordsOfRow, ParseTree.separator]
    · rw [all?_cons, hv, Option.bind_some, all?_nil_cons, hall]
  | close he ho hk _ =>
    obtain ⟨t, ht, hw, hv⟩ := hn _ _ _ he
    obtain ⟨ho, -⟩ := Cursor.next_eq_ok ho
    refine ⟨[t], [], List.cons_ne_nil _ _, by simp, by simpa using ht, by simp, ?_, ?_⟩
    · rw [hw, ho, Token.word_of_kind hk (by decide) (by decide)]
      simp [ParseTree.wordsOfRows, ParseTree.wordsOfRow, ParseTree.separator]
    · rw [all?_cons, hv, Option.bind_some, all?_nil_nil]

theorem matrix_sound (hn : Sound .expr nested) {c c' : Cursor} {g : Located (Grid (Expr α))}
    (h : (matrixWith nested c).result = .ok (g, c')) : Spelled .operand c.words ⟨.matrix g.value, g.span⟩ c' := by
  obtain ⟨opening, c₁, rows, closing, ho, hk, hentries, hg, -⟩ := matrixWith_eq_ok h
  obtain ⟨ho, -⟩ := Cursor.next_eq_ok ho
  obtain ⟨ts, tss, hne, hnes, hf, hfs, hw, hall⟩ := hentries.sound hn
  refine ⟨.matrix (ts :: tss), .matrix (List.cons_ne_nil _ _) (List.forall_mem_cons.mpr ⟨hne, hnes⟩)
    (List.forall_mem_cons.mpr ⟨hf, hfs⟩), ?_, ?_⟩
  · rw [ho, Token.word_of_kind hk (by decide) (by decide), hw, ParseTree.words]
    simp
  · rw [ParseTree.expr?, ParseTree.rows?]
    unfold all? at hall
    cases hr : ParseTree.row? (α := α) ts with
    | none => simp [hr] at hall
    | some vs =>
      cases hrs : ParseTree.rows? (α := α) tss with
      | none => simp [hr, hrs] at hall
      | some vss =>
        have hall : vs :: vss = rows := by simpa [hr, hrs] using hall
        simp [hall, hg]

/-! ## Operands -/

theorem operand_sound (hn : Sound .expr nested) : Sound .operand (operand nested) := by
  intro c e c' h
  cases operand_cases h with
  | matrix hg => exact matrix_sound hn hg
  | @number t v _ ht hk hv =>
    obtain ⟨ht, -⟩ := Cursor.next_eq_ok ht
    refine ⟨.number t.lexeme, .number _, ?_, ?_⟩
    · rw [ht, Token.word, hk, ParseTree.words, List.singleton_append]
    · rw [ParseTree.expr?, hv]
      rfl
  | @name t _ ht hk =>
    obtain ⟨ht, -⟩ := Cursor.next_eq_ok ht
    refine ⟨.name t.lexeme, .name _, ?_, by rw [ParseTree.expr?]⟩
    rw [ht, Token.word, hk, ParseTree.words, List.singleton_append]
  | paren ht hk hinner hclosing =>
    obtain ⟨ht, -⟩ := Cursor.next_eq_ok ht
    obtain ⟨x, hx, hw, hv⟩ := hn _ _ _ hinner
    obtain ⟨hq, -, hqk⟩ := Cursor.expect_eq_ok hclosing
    refine ⟨.paren x, .paren hx, ?_, by rw [ParseTree.expr?, hv]⟩
    rw [ht, Token.word_of_kind hk (by decide) (by decide), hw, hq, Token.word_of_kind hqk (by decide) (by decide),
      ParseTree.words]
    simp

/-! ## Loops -/

theorem TransposesRun.sound {ws : List Word} {e e' : Located (Expr α)} {c c' : Cursor}
    (h : TransposesRun e c e' c') (he : Spelled .primed ws e c) : Spelled .primed ws e' c' := by
  induction h with
  | stop => exact he
  | quote hsign hk hg _ ih =>
    obtain ⟨hsign, -⟩ := Cursor.next_eq_ok hsign
    obtain ⟨t, ht, hw, hv⟩ := he
    refine ih ⟨.transpose t, .transpose ht, ?_, ?_⟩
    · rw [hw, hsign, Token.word_of_kind hk (by decide) (by decide), ParseTree.words, List.append_assoc,
        List.singleton_append]
    · rw [ParseTree.expr?, hv, hg]
      rfl

/-- A loop of operators keeps to a place of the grammar, if one more operand does. -/
theorem OperationsRun.sound {p q : Phrase} {operator? : TokenKind → Option Operator} {read : ExprReader α}
    (hread : Sound q read)
    (hsign : ∀ (l r : ParseTree) (op : Operator) (w : Word), l.Fits p → r.Fits q → operator? w.kind = some op →
      w.kind ≠ .openParen → w = op.sign ∧ (ParseTree.binary op l r).Fits p)
    (hopen : ∀ (l r : ParseTree) (op : Operator), l.Fits p → r.Fits q → operator? .openParen = some op →
      r.words.head? = some (.sign .openParen) → op = .mul ∧ (ParseTree.juxtapose l r).Fits p)
    {ws : List Word} {e e' : Located (Expr α)} {c c' : Cursor} (h : OperationsRun operator? read e c e' c')
    (he : Spelled p ws e c) : Spelled p ws e' c' := by
  induction h with
  | stop => exact he
  | @operator op e r _ v c c₁ c₂ _ hop hskip hr hvalue _ ih =>
    obtain ⟨t, ht, hw, hv⟩ := he
    obtain ⟨u, hu, hwu, hvu⟩ := hread _ _ _ hr
    rcases skipSign_eq_ok hskip with ⟨hp, rfl⟩ | ⟨hne, sign, hsign'⟩
    · -- No sign: the operand begins with the parenthesis that was seen.
      rw [hp, Option.bind_some] at hop
      have hhead : u.words.head? = some (.sign .openParen) := by
        obtain ⟨x, xs, hx, -⟩ := head_of_fits hu
        rw [Cursor.peek?_eq, hwu, hx, List.cons_append, List.head?_cons, Option.map_some, Option.some.injEq] at hp
        rw [hx, List.head?_cons, Word.eq_sign hp (by decide) (by decide)]
      obtain ⟨rfl, hfit⟩ := hopen t u op ht hu hop hhead
      refine ih ⟨.juxtapose t u, hfit, by rw [hw, hwu, ParseTree.words, List.append_assoc], ?_⟩
      rw [ParseTree.expr?]
      exact Operator.combined_eq_some.mpr ⟨e.value, r.value, hv, hvu, hvalue⟩
    · obtain ⟨hw₁, -⟩ := Cursor.next_eq_ok hsign'
      have hpeek : c.peek? = some sign.word.kind := by rw [Cursor.peek?_eq, hw₁]; rfl
      rw [hpeek, Option.bind_some] at hop
      obtain ⟨hword, hfit⟩ := hsign t u op sign.word ht hu hop fun hk => hne (by rw [hpeek, hk])
      refine ih ⟨.binary op t u, hfit, ?_, ?_⟩
      · rw [hw, hw₁, hword, hwu, ParseTree.words, List.append_assoc, List.cons_append]
      · rw [ParseTree.expr?]
        exact Operator.combined_eq_some.mpr ⟨e.value, r.value, hv, hvu, hvalue⟩

/-! ## Expressions -/

theorem postfixed_sound (hn : Sound .expr nested) : Sound .primed (postfixed nested) := by
  intro c e c' h
  obtain ⟨⟨e₁, c₁⟩, he, h⟩ := Logged.result_bind_eq_ok.mp h
  obtain ⟨t, ht, hw, hv⟩ := operand_sound hn _ _ _ he
  exact (transposesRun h).sound ⟨t, .operand ht, hw, hv⟩

theorem unary_sound (hn : Sound .expr nested) : Sound .unary (unary nested) := by
  intro c e c' h
  cases unary_cases h with
  | plain h =>
    obtain ⟨t, ht, hw, hv⟩ := postfixed_sound hn _ _ _ h
    exact ⟨t, .primed ht, hw, hv⟩
  | minus hminus hk h =>
    obtain ⟨ho, -⟩ := Cursor.next_eq_ok hminus
    obtain ⟨t, ht, hw, hv⟩ := postfixed_sound hn _ _ _ h
    refine ⟨.neg t, .neg ht, ?_, ?_⟩
    · rw [ho, Token.word_of_kind hk (by decide) (by decide), hw, ParseTree.words, List.cons_append]
    · rw [ParseTree.expr?, hv]
      rfl

theorem term_sound (hn : Sound .expr nested) : Sound .term (term nested) := by
  intro c e c' h
  obtain ⟨⟨e₁, c₁⟩, he, h⟩ := Logged.result_bind_eq_ok.mp h
  obtain ⟨t, ht, hw, hv⟩ := unary_sound hn _ _ _ he
  refine (operationsRun h).sound (unary_sound hn) ?_ ?_ ⟨t, .unary ht, hw, hv⟩
  · intro l r op w hl hr hop hne
    unfold Operator.multiplicative? at hop
    split at hop
    · rename_i hk
      cases hop
      exact ⟨Word.eq_sign hk (by decide) (by decide), .multiplicative (Or.inl rfl) hl hr⟩
    · rename_i hk
      exact absurd hk hne
    · rename_i hk
      cases hop
      exact ⟨Word.eq_sign hk (by decide) (by decide), .multiplicative (Or.inr rfl) hl hr⟩
    · cases hop
  · intro l r op hl hr hop hhead
    cases hop
    exact ⟨rfl, .juxtapose hl hr hhead⟩

theorem expr_sound (hn : Sound .expr nested) : Sound .expr (exprWith nested) := by
  intro c e c' h
  obtain ⟨⟨e₁, c₁⟩, he, h⟩ := Logged.result_bind_eq_ok.mp h
  obtain ⟨t, ht, hw, hv⟩ := term_sound hn _ _ _ he
  refine (operationsRun h).sound (term_sound hn) ?_ ?_ ⟨t, .term ht, hw, hv⟩
  · intro l r op w hl hr hop _
    unfold Operator.additive? at hop
    split at hop
    · rename_i hk
      cases hop
      exact ⟨Word.eq_sign hk (by decide) (by decide), .additive (Or.inl rfl) hl hr⟩
    · rename_i hk
      cases hop
      exact ⟨Word.eq_sign hk (by decide) (by decide), .additive (Or.inr rfl) hl hr⟩
    · cases hop
  · intro l r op _ _ hop _
    cases hop

theorem exprWithin_sound (k : Nat) : Sound .expr (exprWithin (α := α) k) := by
  induction k with
  | zero =>
    intro c e c' h
    cases h
  | succ k ih => exact expr_sound ih

/-! ## Definitions -/

theorem definition_sound {c c' : Cursor} {d : Definition α} (h : (definition c).result = .ok (d, c')) :
    ∃ s : Statement, s.body.Fits .expr ∧ c.words = s.words ++ c'.words ∧ d.name = s.name ∧ s.body.expr? = some d.value := by
  obtain ⟨name, c₁, assign, c₂, e, c₃, semicolon, hname, hassign, he, hsemicolon, rfl⟩ := definition_eq_ok h
  obtain ⟨hw, -, hk⟩ := Cursor.expect_eq_ok hname
  obtain ⟨hw₁, -, hk₁⟩ := Cursor.expect_eq_ok hassign
  obtain ⟨t, ht, hw₂, hv⟩ := exprWithin_sound _ _ _ _ he
  obtain ⟨hw₃, -, hk₃⟩ := Cursor.expect_eq_ok hsemicolon
  refine ⟨⟨name.lexeme, t⟩, ht, ?_, rfl, hv⟩
  have hn : name.word = .name name.lexeme := by rw [Token.word, hk]
  rw [hw, hn, hw₁, Token.word_of_kind hk₁ (by decide) (by decide), hw₂, hw₃,
    Token.word_of_kind hk₃ (by decide) (by decide), Statement.words]
  simp

theorem readDefinitions_sound {n : Nat} {done ds : List (Definition α)} {c : Cursor} (hn : c.rest.length ≤ n)
    (h : (Program.readDefinitions n done c).result = .ok ds) :
    ∃ ss : List Statement, c.words = ss.flatMap Statement.words ∧ ∀ s ∈ ss, s.body.Fits .expr := by
  induction n generalizing done c with
  | zero =>
    have hnil : c.rest = [] := List.length_eq_zero_iff.mp (by omega)
    exact ⟨[], by rw [Cursor.words, hnil]; rfl, by simp⟩
  | succ n ih =>
    rw [Program.readDefinitions] at h
    split at h
    · rename_i hend
      exact ⟨[], Cursor.atEnd_iff.mp hend, by simp⟩
    · obtain ⟨⟨d, c₁⟩, hd, h⟩ := Logged.result_bind_eq_ok.mp h
      obtain ⟨_, _, h⟩ := Logged.result_bind_eq_ok.mp h
      obtain ⟨_, _, h⟩ := Logged.result_bind_eq_ok.mp h
      obtain ⟨s, hs, hw, -, hv⟩ := definition_sound hd
      -- The definition is the one that its words lead to, so it has taken tokens.
      have hl : c₁.rest.length < c.rest.length := by
        have hr := definition_of_words (α := α) hs hw
        rw [hv] at hr
        obtain ⟨d', c', hd', -, -, -, hl⟩ := hr
        rw [hd] at hd'
        cases hd'
        exact hl
      obtain ⟨ss, hss, hfits⟩ := ih (by omega) h
      exact ⟨s :: ss, by rw [hw, hss, List.flatMap_cons], List.forall_mem_cons.mpr ⟨hs, hfits⟩⟩

end Grammar

/-- A source whose definitions can be read is written by the grammar. -/
theorem Program.spell_of_written {source : String} {ds : List (Definition α)} (h : Program.written source = .ok ds) :
    ∃ ss, Statement.Spell ss source := Grammar.readDefinitions_sound le_rfl h

end SymbolicAlgebra
