/-
  SymbolicAlgebra.Proofs.Grammar.Rules — how a reading that succeeds has gone.

  The rules of the grammar decide by the next token, and the loops among them count how often they may
  still go round. Here each is taken apart once: what an operand can have been (`OperandCase`), a value with
  or without a minus (`UnaryCase`), and the rounds of a loop without the count (`EntriesRun`,
  `TransposesRun`, `OperationsRun`). What holds of all that is read goes by induction over these.
-/

import SymbolicAlgebra.Proofs.Grammar.Completeness

namespace SymbolicAlgebra.Grammar

variable {α : Type} {nested : ExprReader α} {c c' : Cursor}

/-! ## Matrices -/

/-- The entries of a matrix up to the closing bracket, with the complete rows, the row under way and where
    it began. -/
inductive EntriesRun (nested : ExprReader α) : List (List (Expr α)) → List (Expr α) → Option Nat → Cursor →
    List (List (Expr α)) → Token → Cursor → Prop
  | comma {rows all : List (List (Expr α))} {row : List (Expr α)} {start : Option Nat} {e : Located (Expr α)}
      {o closing : Token} {c c₁ c₂ c' : Cursor} :
      (nested c).result = .ok (e, c₁) → c₁.next = .ok (o, c₂) → o.kind = .comma →
      EntriesRun nested rows (row ++ [e.value]) (some (start.getD e.span.start)) c₂ all closing c' →
      EntriesRun nested rows row start c all closing c'
  | semicolon {rows all : List (List (Expr α))} {row : List (Expr α)} {start : Option Nat} {e : Located (Expr α)}
      {o closing : Token} {c c₁ c₂ c' : Cursor} :
      (nested c).result = .ok (e, c₁) → c₁.next = .ok (o, c₂) → o.kind = .semicolon →
      checkRow rows (row ++ [e.value]) ⟨start.getD e.span.start, e.span.stop⟩ = .ok () →
      EntriesRun nested (rows ++ [row ++ [e.value]]) [] none c₂ all closing c' →
      EntriesRun nested rows row start c all closing c'
  | close {rows : List (List (Expr α))} {row : List (Expr α)} {start : Option Nat} {e : Located (Expr α)} {o : Token}
      {c c₁ c₂ : Cursor} :
      (nested c).result = .ok (e, c₁) → c₁.next = .ok (o, c₂) → o.kind = .closeSquare →
      checkRow rows (row ++ [e.value]) ⟨start.getD e.span.start, e.span.stop⟩ = .ok () →
      EntriesRun nested rows row start c (rows ++ [row ++ [e.value]]) o c₂

theorem entriesRun {n : Nat} {rows all : List (List (Expr α))} {row : List (Expr α)} {start : Option Nat} {closing : Token}
    (h : (entries nested n rows row start c).result = .ok ((all, closing), c')) :
    EntriesRun nested rows row start c all closing c' := by
  induction n generalizing rows row start c with
  | zero => cases h
  | succ n ih =>
    rw [result_entries_succ] at h
    obtain ⟨⟨e, c₁⟩, he, h⟩ := bind_eq_ok.mp h
    obtain ⟨⟨o, c₂⟩, ho, h⟩ := bind_eq_ok.mp h
    unfold afterSign at h
    dsimp only at h
    split at h
    · rename_i hk
      exact .comma he ho hk (ih h)
    · rename_i hk
      obtain ⟨_, hrow, h⟩ := bind_eq_ok.mp h
      exact .semicolon he ho hk hrow (ih h)
    · rename_i hk
      obtain ⟨_, hrow, h⟩ := bind_eq_ok.mp h
      cases pure_eq_ok.mp h
      exact .close he ho hk hrow
    · simp at h

theorem matrixWith_eq_ok {g : Located (Grid (Expr α))} (h : (matrixWith nested c).result = .ok (g, c')) :
    ∃ opening c₁ rows closing, c.next = .ok (opening, c₁) ∧ opening.kind = .openSquare ∧
      EntriesRun nested [] [] none c₁ rows closing c' ∧ Grid.ofRows? rows = some g.value ∧
      g.span = ⟨opening.span.start, closing.span.stop⟩ := by
  obtain ⟨⟨opening, c₁⟩, hopening, h⟩ := Logged.result_bind_eq_ok.mp h
  dsimp only at h
  split at h
  · cases h
  · rename_i hk
    split at h
    · obtain ⟨_, _, h⟩ := Logged.result_bind_eq_ok.mp h
      cases h
    · obtain ⟨⟨⟨rows, closing⟩, c₂⟩, he, h⟩ := Logged.result_bind_eq_ok.mp h
      dsimp only at h
      split at h
      · rename_i grid hgrid
        cases h
        exact ⟨opening, c₁, rows, closing, hopening, not_not.mp hk, entriesRun he, hgrid, rfl⟩
      · cases h

/-! ## Operands -/

variable [Scalar α]

/-- The ways in which an operand is read. -/
inductive OperandCase (nested : ExprReader α) (c : Cursor) : Located (Expr α) → Cursor → Prop
  | matrix {g : Located (Grid (Expr α))} {c' : Cursor} : (matrixWith nested c).result = .ok (g, c') →
      OperandCase nested c ⟨.matrix g.value, g.span⟩ c'
  | number {t : Token} {v : α} {c' : Cursor} : c.next = .ok (t, c') → t.kind = .number →
      Scalar.ofText? (String.ofList (t.lexeme.toList.filter (· != '_'))) = some v → OperandCase nested c ⟨.const v, t.span⟩ c'
  | name {t : Token} {c' : Cursor} : c.next = .ok (t, c') → t.kind = .name →
      OperandCase nested c ⟨.ofName t.lexeme, t.span⟩ c'
  | paren {t closing : Token} {inner : Located (Expr α)} {c₁ c₂ c' : Cursor} : c.next = .ok (t, c₁) → t.kind = .openParen →
      (nested c₁).result = .ok (inner, c₂) → c₂.expect .closeParen = .ok (closing, c') →
      OperandCase nested c ⟨inner.value, ⟨t.span.start, closing.span.stop⟩⟩ c'

theorem operand_cases {e : Located (Expr α)} (h : (operand nested c).result = .ok (e, c')) : OperandCase nested c e c' := by
  unfold operand at h
  split at h
  · obtain ⟨⟨g, c₁⟩, hg, h⟩ := Logged.result_bind_eq_ok.mp h
    cases h
    exact .matrix hg
  · obtain ⟨⟨t, c₁⟩, ht, h⟩ := Logged.result_bind_eq_ok.mp h
    dsimp only at h
    split at h
    · rename_i hk
      obtain ⟨v, hv, h⟩ := Logged.result_bind_eq_ok.mp h
      cases h
      simp only [Logged.result_lift, number] at hv
      split at hv
      · rename_i w hw
        cases hv
        exact .number ht hk hw
      · cases hv
    · rename_i hk
      cases h
      exact .name ht hk
    · rename_i hk
      obtain ⟨⟨inner, c₂⟩, hinner, h⟩ := Logged.result_bind_eq_ok.mp h
      obtain ⟨⟨closing, c₃⟩, hclosing, h⟩ := Logged.result_bind_eq_ok.mp h
      cases h
      exact .paren ht hk hinner hclosing
    · cases h

omit [Scalar α] in
/-- The transpose signs after an operand, whose value is a matrix if there are any. -/
inductive TransposesRun : Located (Expr α) → Cursor → Located (Expr α) → Cursor → Prop
  | stop {e : Located (Expr α)} {c : Cursor} : TransposesRun e c e c
  | quote {e e' : Located (Expr α)} {g : Grid (Expr α)} {sign : Token} {c c₁ c' : Cursor} : c.next = .ok (sign, c₁) →
      sign.kind = .quote → e.value = .matrix g →
      TransposesRun ⟨.matrix g.transpose, ⟨e.span.start, sign.span.stop⟩⟩ c₁ e' c' → TransposesRun e c e' c'

omit [Scalar α] in
theorem transposesRun {n : Nat} {e e' : Located (Expr α)} (h : (transposes n e c).result = .ok (e', c')) :
    TransposesRun e c e' c' := by
  induction n generalizing e c with
  | zero =>
    cases h
    exact .stop
  | succ n ih =>
    unfold transposes at h
    split at h
    · cases h
      exact .stop
    · rename_i hpeek
      obtain ⟨⟨sign, c₁⟩, hsign, h⟩ := Logged.result_bind_eq_ok.mp h
      dsimp only at h
      split at h
      · rename_i g hg
        exact .quote hsign (Cursor.kind_of_peek? (not_not.mp hpeek) hsign) hg (ih h)
      · cases h

/-- A value with or without a minus. -/
inductive UnaryCase (nested : ExprReader α) (c : Cursor) : Located (Expr α) → Cursor → Prop
  | plain {e : Located (Expr α)} {c' : Cursor} : (postfixed nested c).result = .ok (e, c') → UnaryCase nested c e c'
  | minus {minus : Token} {e : Located (Expr α)} {c₁ c' : Cursor} : c.next = .ok (minus, c₁) → minus.kind = .sub →
      (postfixed nested c₁).result = .ok (e, c') →
      UnaryCase nested c ⟨e.value.neg, ⟨minus.span.start, e.span.stop⟩⟩ c'

theorem unary_cases {e : Located (Expr α)} (h : (unary nested c).result = .ok (e, c')) : UnaryCase nested c e c' := by
  unfold unary at h
  split at h
  · exact .plain h
  · rename_i hpeek
    obtain ⟨⟨minus, c₁⟩, hminus, h⟩ := Logged.result_bind_eq_ok.mp h
    dsimp only at h
    split at h
    · obtain ⟨_, _, h⟩ := Logged.result_bind_eq_ok.mp h
      cases h
    · obtain ⟨⟨e₁, c₂⟩, he, h⟩ := Logged.result_bind_eq_ok.mp h
      cases h
      exact .minus hminus (Cursor.kind_of_peek? (not_not.mp hpeek) hminus) he

/-! ## Operators -/

omit [Scalar α] in
/-- What is passed over before an operand: its sign, or nothing where the operand is in parentheses. -/
theorem skipSign_eq_ok (h : skipSign c = .ok c') :
    (c.peek? = some .openParen ∧ c' = c) ∨ c.peek? ≠ some .openParen ∧ ∃ sign, c.next = .ok (sign, c') := by
  unfold skipSign at h
  split at h
  · rename_i hpeek
    exact Or.inl ⟨hpeek, (pure_eq_ok.mp h).symm⟩
  · rename_i hpeek
    obtain ⟨⟨sign, c₁⟩, hsign, h⟩ := bind_eq_ok.mp h
    cases pure_eq_ok.mp h
    exact Or.inr ⟨hpeek, sign, hsign⟩

/-- Operators and operands after the value so far. -/
inductive OperationsRun (operator? : TokenKind → Option Operator) (read : ExprReader α) :
    Located (Expr α) → Cursor → Located (Expr α) → Cursor → Prop
  | stop {e : Located (Expr α)} {c : Cursor} : OperationsRun operator? read e c e c
  | operator {op : Operator} {e r e' : Located (Expr α)} {v : Expr α} {c c₁ c₂ c' : Cursor} :
      c.peek?.bind operator? = some op → skipSign c = .ok c₁ → (read c₁).result = .ok (r, c₂) →
      op.apply e.value r.value = .ok v →
      OperationsRun operator? read ⟨v, ⟨e.span.start, r.span.stop⟩⟩ c₂ e' c' → OperationsRun operator? read e c e' c'

theorem operationsRun {operator? : TokenKind → Option Operator} {read : ExprReader α} {n : Nat} {e e' : Located (Expr α)}
    (h : (operations operator? read n e c).result = .ok (e', c')) : OperationsRun operator? read e c e' c' := by
  induction n generalizing e c with
  | zero =>
    cases h
    exact .stop
  | succ n ih =>
    unfold operations at h
    split at h
    · cases h
      exact .stop
    · rename_i op hop
      obtain ⟨c₁, hskip, h⟩ := Logged.result_bind_eq_ok.mp h
      obtain ⟨⟨r, c₂⟩, hr, h⟩ := Logged.result_bind_eq_ok.mp h
      obtain ⟨e₁, he₁, h⟩ := Logged.result_bind_eq_ok.mp h
      rw [result_combine] at he₁
      split at he₁
      · rename_i v hv
        cases he₁
        exact .operator hop hskip hr hv (ih h)
      · cases he₁

/-! ## Definitions -/

theorem definition_eq_ok {d : Definition α} (h : (definition c).result = .ok (d, c')) :
    ∃ name c₁ assign c₂ e c₃ semicolon, c.expect .name = .ok (name, c₁) ∧ c₁.expect .assign = .ok (assign, c₂) ∧
      (expr c₂).result = .ok (e, c₃) ∧ c₃.expect .semicolon = .ok (semicolon, c') ∧
      d = ⟨name.lexeme, name.span, e.value, ⟨name.span.start, semicolon.span.stop⟩⟩ := by
  obtain ⟨⟨name, c₁⟩, hname, h⟩ := Logged.result_bind_eq_ok.mp h
  dsimp only at h
  split at h
  · cases h
  · obtain ⟨⟨assign, c₂⟩, hassign, h⟩ := Logged.result_bind_eq_ok.mp h
    obtain ⟨⟨e, c₃⟩, he, h⟩ := Logged.result_bind_eq_ok.mp h
    dsimp only at h
    split at h
    · cases h
    · obtain ⟨⟨semicolon, c₄⟩, hsemicolon, h⟩ := Logged.result_bind_eq_ok.mp h
      cases h
      exact ⟨name, c₁, assign, c₂, e, c₃, semicolon, hname, hassign, he, hsemicolon, rfl⟩

end SymbolicAlgebra.Grammar
