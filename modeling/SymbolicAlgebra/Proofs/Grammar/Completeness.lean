/-
  SymbolicAlgebra.Proofs.Grammar.Completeness — a text that is written by the grammar is read as the
  tree says.

  The readers of the operators and of the transpose signs are loops, while trees group to the left.
  So the statement about a tree (`Reads`) is about where its reader is when the words of the tree
  are behind it: in the loop of that place of the grammar, with the value of the tree so far. If the
  tree has no value the reader has failed by then, whatever comes after.
-/

import SymbolicAlgebra.Proofs.Grammar.Words
import SymbolicAlgebra.Proofs.Resolution

namespace SymbolicAlgebra

open ParseTree (Phrase)

variable {α : Type} [Scalar α]

/-- A reader that goes on after a value. -/
abbrev Loop (α : Type) := Nat → Located (Expr α) → Cursor → Reading α (Located (Expr α) × Cursor)

namespace ParseTree.Phrase

/-- The reader of the place. -/
def read (nested : ExprReader α) : Phrase → ExprReader α
  | operand => Grammar.operand nested
  | primed => Grammar.postfixed nested
  | unary => Grammar.unary nested
  | term => Grammar.term nested
  | expr => Grammar.exprWith nested

/-- Nothing is left to do. -/
def stop : Loop α := fun _ e c => return (e, c)

/-- What the reader does with the signs after the first part. -/
def loop (nested : ExprReader α) : Phrase → Loop α
  | operand => stop
  | primed => Grammar.transposes
  | unary => stop
  | term => Grammar.operations Operator.multiplicative? (Grammar.unary nested)
  | expr => Grammar.operations Operator.additive? (Grammar.term nested)

/-- The kinds of word that a text at this place can begin with. -/
def starts : Phrase → List TokenKind
  | operand => Grammar.operandStart
  | primed => Grammar.operandStart
  | _ => Grammar.exprStart

/-- The kinds of word that would be read into the last part of a text at this place. -/
def absorbs : Phrase → List TokenKind
  | operand => []
  | primed => []
  | unary => [.quote]
  | term => [.quote]
  | expr => [.quote, .mul, .div, .openParen]

end ParseTree.Phrase

namespace Grammar

/-- The outcome of a reader is a failure, if there is no value; else the reader goes on in its loop
    with that value, before the words `rest` and behind some of the `m` tokens it began with. -/
def Reaches (loop : Loop α) (outcome : Except Problem (Located (Expr α) × Cursor)) (value? : Option (Expr α))
    (rest : List Word) (m : Nat) : Prop :=
  match value? with
  | none => ∃ p, outcome = .error p
  | some v => ∃ n e c, outcome = (loop n e c).result ∧ e.value = v ∧ c.words = rest ∧ c.rest.length < m ∧ c.rest.length ≤ n

/-- The tree is read as it should be, at a place of the grammar and among at most `m` tokens. -/
def Reads (nested : ExprReader α) (m : Nat) (p : Phrase) (t : ParseTree) : Prop :=
  ∀ (c : Cursor) (rest : List Word), c.words = t.words ++ rest → c.rest.length ≤ m →
    (∀ w, rest.head? = some w → w.kind ∉ p.absorbs) →
      Reaches (p.loop nested) (p.read nested c).result t.expr? rest c.rest.length

/-! ## The first word -/

theorem head_of_fits {p : Phrase} {t : ParseTree} (h : t.Fits p) :
    ∃ w ws, t.words = w :: ws ∧ w.kind ∈ p.starts := by
  induction h with
  | number s => exact ⟨.number s, [], by rw [ParseTree.words], List.mem_cons_self⟩
  | name n => exact ⟨.name n, [], by rw [ParseTree.words], List.mem_cons_of_mem _ List.mem_cons_self⟩
  | paren => exact ⟨_, _, by rw [ParseTree.words], by decide⟩
  | matrix => exact ⟨_, _, by rw [ParseTree.words], by decide⟩
  | operand _ ih => exact ih
  | transpose _ ih =>
    obtain ⟨w, ws, hw, hk⟩ := ih
    exact ⟨w, _, by rw [ParseTree.words, hw, List.cons_append], hk⟩
  | primed _ ih =>
    obtain ⟨w, ws, hw, hk⟩ := ih
    exact ⟨w, ws, hw, List.mem_cons_of_mem _ hk⟩
  | neg => exact ⟨_, _, by rw [ParseTree.words], by decide⟩
  | unary _ ih => exact ih
  | multiplicative _ _ _ ih _ =>
    obtain ⟨w, ws, hw, hk⟩ := ih
    exact ⟨w, _, by rw [ParseTree.words, hw, List.cons_append], hk⟩
  | juxtapose _ _ _ ih _ =>
    obtain ⟨w, ws, hw, hk⟩ := ih
    exact ⟨w, _, by rw [ParseTree.words, hw, List.cons_append], hk⟩
  | term _ ih => exact ih
  | additive _ _ _ ih _ =>
    obtain ⟨w, ws, hw, hk⟩ := ih
    exact ⟨w, _, by rw [ParseTree.words, hw, List.cons_append], hk⟩

/-! ## Loops -/

omit [Scalar α] in
theorem transposes_stop {n : Nat} {e : Located (Expr α)} {c : Cursor} (h : c.peek? ≠ some .quote) :
    (transposes n e c).result = .ok (e, c) := by
  cases n with
  | zero => rfl
  | succ n => simp [transposes, h]

theorem operations_stop {operator? : TokenKind → Option Operator} {read : ExprReader α} {n : Nat}
    {e : Located (Expr α)} {c : Cursor} (h : c.peek?.bind operator? = none) :
    (operations operator? read n e c).result = .ok (e, c) := by
  cases n with
  | zero => rfl
  | succ n => simp [operations, h]

omit [Scalar α] in
/-- A loop that has nothing to do before these words returns what it has. -/
theorem Reaches.stop {loop : Loop α} {outcome : Except Problem (Located (Expr α) × Cursor)} {value? : Option (Expr α)}
    {rest : List Word} {m : Nat} (h : Reaches loop outcome value? rest m)
    (hstop : ∀ n e c, c.words = rest → (loop n e c).result = .ok (e, c)) :
    Reaches ParseTree.Phrase.stop outcome value? rest m := by
  cases value? with
  | none => exact h
  | some v =>
    obtain ⟨n, e, c, ho, hv, hw, hl, -⟩ := h
    exact ⟨c.rest.length, e, c, by rw [ho, hstop n e c hw]; rfl, hv, hw, hl, le_rfl⟩

omit [Scalar α] in
/-- A reader that ends goes on in the loop that follows it. -/
theorem Reaches.then {loop : Loop α} {read : Reading α (Located (Expr α) × Cursor)} {value? : Option (Expr α)}
    {rest : List Word} {m : Nat} (h : Reaches ParseTree.Phrase.stop read.result value? rest m) :
    Reaches loop (do let (e, c) ← read; loop c.rest.length e c).result value? rest m := by
  cases value? with
  | none =>
    obtain ⟨p, hp⟩ := h
    exact ⟨p, by simp [hp]⟩
  | some v =>
    obtain ⟨n, e, c, ho, hv, hw, hl, -⟩ := h
    have ho : read.result = .ok (e, c) := ho
    exact ⟨c.rest.length, e, c, by simp [ho], hv, hw, hl, le_rfl⟩

theorem result_combine {op : Operator} {lhs rhs : Located (Expr α)} : (combine op lhs rhs).result =
    match op.apply lhs.value rhs.value with
    | .ok v => .ok ⟨v, ⟨lhs.span.start, rhs.span.stop⟩⟩
    | .error e => .error ⟨.invalidExpression e, [⟨lhs.span.start, rhs.span.stop⟩]⟩ := by
  simp only [combine, Logged.result_bind, Logged.result_tell, ok_bind]
  split <;> simp_all

/-- One more operand in the loop of the operators. -/
theorem Reaches.operation {operator? : TokenKind → Option Operator} {read : ExprReader α} {op : Operator}
    {outcome : Except Problem (Located (Expr α) × Cursor)} {left? right? : Option (Expr α)}
    {ws us rest : List Word} {m : Nat} (hl : Reaches (operations operator? read) outcome left? ws m)
    (hsign : ∀ c, c.words = ws → c.peek?.bind operator? = some op ∧ 0 < c.rest.length ∧
      ∃ c', skipSign c = .ok c' ∧ c'.words = us ∧ c'.rest.length ≤ c.rest.length)
    (hr : ∀ c, c.words = us → c.rest.length < m →
      Reaches ParseTree.Phrase.stop (read c).result right? rest c.rest.length) :
    Reaches (operations operator? read) outcome (do (op.apply (← left?) (← right?)).toOption) rest m := by
  cases left? with
  | none => exact hl
  | some a =>
    obtain ⟨n, e, c, ho, rfl, hw, hlt, hn⟩ := hl
    obtain ⟨hop, hpos, c', hskip, hw', hle⟩ := hsign c hw
    obtain ⟨n, rfl⟩ := Nat.exists_eq_succ_of_ne_zero (by omega : n ≠ 0)
    have hr := hr c' hw' (by omega)
    have hstep : (operations operator? read (n + 1) e c).result =
        (read c').result >>= fun p => (combine op e p.1).result >>= fun lhs => (operations operator? read n lhs p.2).result := by
      simp [operations, hop, hskip]
    rw [hstep] at ho
    cases right? with
    | none =>
      obtain ⟨p, hp⟩ := hr
      exact ⟨p, by rw [ho, hp]; rfl⟩
    | some b =>
      obtain ⟨_, e', c'', ho', rfl, hw'', hl'', -⟩ := hr
      have ho' : (read c').result = .ok (e', c'') := ho'
      rw [ho', ok_bind, result_combine] at ho
      show Reaches _ outcome (op.apply e.value e'.value).toOption rest m
      cases hv : op.apply e.value e'.value with
      | error x =>
        rw [hv] at ho
        exact ⟨_, ho⟩
      | ok v =>
        rw [hv] at ho
        exact ⟨n, _, c'', ho, rfl, hw'', by omega, by omega⟩

/-! ## Operands -/

theorem word_eq_name {t : Token} {s : String} (h : t.word = .name s) : t.kind = .name ∧ t.lexeme = s := by
  unfold Token.word at h
  split at h
  · rename_i hk
    exact ⟨hk, Word.name.inj h⟩
  · cases h
  · cases h

theorem word_eq_number {t : Token} {s : String} (h : t.word = .number s) : t.kind = .number ∧ t.lexeme = s := by
  unfold Token.word at h
  split at h
  · cases h
  · rename_i hk
    exact ⟨hk, Word.number.inj h⟩
  · cases h

variable {nested : ExprReader α} {m : Nat}

theorem reads_number (s : String) : Reads nested m .operand (.number s) := by
  intro c rest hw _ _
  obtain ⟨t, c', hn, ht, hw', hl, hp⟩ := Cursor.next_of_words hw
  obtain ⟨hk, rfl⟩ := word_eq_number ht
  have hread : (operand nested c).result = ((fun e => (⟨e, t.span⟩, c')) <$> number t) := by
    simp [operand, hp, Word.kind, hn, hk]
  show Reaches _ (operand nested c).result _ _ _
  rw [hread, ParseTree.expr?, number]
  cases (Scalar.ofText? (String.ofList (t.lexeme.toList.filter (· != '_'))) : Option α) with
  | none => exact ⟨_, rfl⟩
  | some v => exact ⟨c'.rest.length, ⟨.const v, t.span⟩, c', rfl, rfl, hw', hl, le_rfl⟩

theorem reads_name (n : String) : Reads nested m .operand (.name n) := by
  intro c rest hw _ _
  obtain ⟨t, c', hn, ht, hw', hl, hp⟩ := Cursor.next_of_words hw
  obtain ⟨hk, rfl⟩ := word_eq_name ht
  refine ⟨c'.rest.length, ⟨.ofName t.lexeme, t.span⟩, c', ?_, rfl, hw', hl, le_rfl⟩
  show (operand nested c).result = _
  simp [operand, hp, Word.kind, hn, hk, ParseTree.Phrase.loop, ParseTree.Phrase.stop]

/-- The tree is read in brackets, before a word that ends it. -/
def ReadsNested (α : Type) [Scalar α] (t : ParseTree) : Prop :=
  ∀ (k : Nat) (c : Cursor) (w : Word) (rest : List Word), c.words = t.words ++ w :: rest → c.rest.length ≤ k →
    w.kind ∈ [.closeParen, .comma, .semicolon, .closeSquare] →
      Reaches ParseTree.Phrase.stop (exprWithin (α := α) k c).result t.expr? (w :: rest) c.rest.length

theorem readsNested {t : ParseTree} (h : ∀ k, Reads (exprWithin (α := α) k) (k + 1) .expr t) : ReadsNested α t := by
  intro k c w rest hw hk hend
  have hpos : 0 < c.rest.length := by
    cases hc : c.words with
    | nil => simp [hc] at hw
    | cons w ws => exact Cursor.length_pos_of_words hc
  obtain ⟨k, rfl⟩ := Nat.exists_eq_succ_of_ne_zero (by omega : k ≠ 0)
  have hr := h k c (w :: rest) hw hk ?_
  · refine Reaches.stop hr fun n e c hc => operations_stop ?_
    rw [Cursor.peek?_eq, hc]
    simp only [List.mem_cons, List.not_mem_nil, or_false] at hend
    rcases hend with h | h | h | h <;> simp [h, Operator.additive?]
  · rintro w' hw'
    cases hw'
    simp only [List.mem_cons, List.not_mem_nil, or_false] at hend
    rcases hend with h | h | h | h <;> simp [h, ParseTree.Phrase.absorbs]

theorem reads_paren {t : ParseTree} (h : ReadsNested α t) (k : Nat) :
    Reads (exprWithin (α := α) k) (k + 1) .operand (.paren t) := by
  intro c rest hw hm _
  rw [ParseTree.words, List.cons_append, List.append_assoc, List.singleton_append] at hw
  obtain ⟨o, c₁, hn, ho, hw₁, hl, hp⟩ := Cursor.next_of_words hw
  have hread : (operand (exprWithin (α := α) k) c).result = (exprWithin k c₁).result >>= fun r =>
      (fun q => (⟨r.1.value, ⟨o.span.start, q.1.span.stop⟩⟩, q.2)) <$> r.2.expect .closeParen := by
    simp [operand, hp, Word.kind, hn, Token.word_of_sign ho]
  have hr := h k c₁ _ rest hw₁ (by omega) List.mem_cons_self
  show Reaches _ (operand _ c).result _ _ _
  rw [hread, ParseTree.expr?]
  cases ht : t.expr? (α := α) with
  | none =>
    rw [ht] at hr
    obtain ⟨p, hp⟩ := hr
    exact ⟨p, by rw [hp]; rfl⟩
  | some v =>
    rw [ht] at hr
    obtain ⟨_, e, c₂, hr, rfl, hw₂, hl₂, -⟩ := hr
    obtain ⟨q, c₃, hq, -, hw₃, hl₃⟩ := Cursor.expect_of_words (k := .closeParen) hw₂ rfl
    have hr : (exprWithin k c₁).result = .ok (e, c₂) := hr
    exact ⟨c₃.rest.length, ⟨e.value, ⟨o.span.start, q.span.stop⟩⟩, c₃, by rw [hr, ok_bind, hq]; rfl, rfl, hw₃,
      by omega, le_rfl⟩

/-! ## Signs before and after an operand -/

theorem reads_primed {t : ParseTree} (h : Reads nested m .operand t) : Reads nested m .primed t :=
  fun c rest hw hm _ => (h c rest hw hm (by simp [ParseTree.Phrase.absorbs])).then

theorem reads_transpose {t : ParseTree} (h : Reads nested m .primed t) : Reads nested m .primed (.transpose t) := by
  intro c rest hw hm _
  rw [ParseTree.words, List.append_assoc, List.singleton_append] at hw
  have hr := h c _ hw hm (by simp [ParseTree.Phrase.absorbs])
  rw [ParseTree.expr?]
  cases ht : t.expr? (α := α) with
  | none =>
    rw [ht] at hr
    exact hr
  | some v =>
    rw [ht] at hr
    obtain ⟨n, e, c₁, ho, rfl, hw₁, hl, hn⟩ := hr
    obtain ⟨q, c₂, hq, -, hw₂, hl₂, hp⟩ := Cursor.next_of_words hw₁
    obtain ⟨n, rfl⟩ := Nat.exists_eq_succ_of_ne_zero (by omega : n ≠ 0)
    rw [ho]
    obtain ⟨v, span⟩ := e
    cases v with
    | matrix g =>
      exact ⟨n, ⟨.matrix g.transpose, ⟨span.start, q.span.stop⟩⟩, c₂,
        by simp [ParseTree.Phrase.loop, transposes, hp, Word.kind, hq], rfl, hw₂, by omega, by omega⟩
    | _ => exact ⟨_, by simp [ParseTree.Phrase.loop, transposes, hp, Word.kind, hq]; rfl⟩

/-- Before anything but a transpose sign the reader of transpose signs ends. -/
theorem reaches_postfixed {t : ParseTree} (h : Reads nested m .primed t) {c : Cursor} {rest : List Word}
    (hw : c.words = t.words ++ rest) (hm : c.rest.length ≤ m) (hrest : ∀ w, rest.head? = some w → w.kind ≠ .quote) :
    Reaches ParseTree.Phrase.stop (postfixed nested c).result t.expr? rest c.rest.length := by
  refine Reaches.stop (h c rest hw hm (by simp [ParseTree.Phrase.absorbs])) fun n e c' hw' => transposes_stop ?_
  rw [Cursor.peek?_eq, hw']
  cases hh : rest.head? with
  | none => simp
  | some w => simpa using hrest w hh

theorem reads_unary {t : ParseTree} (ht : t.Fits .primed) (h : Reads nested m .primed t) : Reads nested m .unary t := by
  intro c rest hw hm hrest
  have hr := reaches_postfixed h hw hm fun w hw => by simpa [ParseTree.Phrase.absorbs] using hrest w hw
  have hp : c.peek? ≠ some .sub := by
    obtain ⟨w, ws, hws, hk⟩ := head_of_fits ht
    rw [Cursor.peek?_eq, hw, hws, List.cons_append, List.head?_cons, Option.map_some]
    intro he
    rw [Option.some.inj he] at hk
    exact absurd hk (by decide)
  show Reaches _ (unary nested c).result _ _ _
  rw [show (unary nested c).result = (postfixed nested c).result by simp [unary, hp]]
  exact hr

theorem reads_neg {t : ParseTree} (ht : t.Fits .primed) (h : Reads nested m .primed t) :
    Reads nested m .unary (.neg t) := by
  intro c rest hw hm hrest
  rw [ParseTree.words, List.cons_append] at hw
  obtain ⟨o, c₁, hn, -, hw₁, hl, hp⟩ := Cursor.next_of_words hw
  have hr := reaches_postfixed h hw₁ (by omega) fun w hw => by simpa [ParseTree.Phrase.absorbs] using hrest w hw
  have hp₁ : c₁.peek? ≠ some .sub := by
    obtain ⟨w, ws, hws, hk⟩ := head_of_fits ht
    rw [Cursor.peek?_eq, hw₁, hws, List.cons_append, List.head?_cons, Option.map_some]
    intro he
    rw [Option.some.inj he] at hk
    exact absurd hk (by decide)
  have hread : (unary nested c).result =
      (fun r => (⟨r.1.value.neg, ⟨o.span.start, r.1.span.stop⟩⟩, r.2)) <$> (postfixed nested c₁).result := by
    simp [unary, hp, Word.kind, hn, hp₁]
  show Reaches _ (unary nested c).result _ _ _
  rw [hread, ParseTree.expr?]
  cases ht : t.expr? (α := α) with
  | none =>
    rw [ht] at hr
    obtain ⟨p, hp⟩ := hr
    exact ⟨p, by rw [hp]; rfl⟩
  | some v =>
    rw [ht] at hr
    obtain ⟨_, e, c₂, hr, rfl, hw₂, hl₂, -⟩ := hr
    have hr : (postfixed nested c₁).result = .ok (e, c₂) := hr
    exact ⟨c₂.rest.length, ⟨e.value.neg, ⟨o.span.start, e.span.stop⟩⟩, c₂, by simp [hr]; rfl, rfl, hw₂, by omega, le_rfl⟩

/-! ## Operators -/

theorem reads_term {t : ParseTree} (h : Reads nested m .unary t) : Reads nested m .term t :=
  fun c rest hw hm hrest => (h c rest hw hm hrest).then

theorem skipSign_of_words {op : Operator} {c : Cursor} {ws : List Word} (h : c.words = op.sign :: ws) :
    c.peek? = some op.sign.kind ∧ 0 < c.rest.length ∧
      ∃ c', skipSign c = .ok c' ∧ c'.words = ws ∧ c'.rest.length ≤ c.rest.length := by
  obtain ⟨o, c', hn, -, hw, hlt, hp⟩ := Cursor.next_of_words h
  have hopen : op.sign.kind ≠ .openParen := by cases op <;> decide
  exact ⟨hp, by omega, c', by simp [skipSign, hp, hopen, hn], hw, by omega⟩

theorem reads_multiplicative {op : Operator} {l r : ParseTree} (hop : op = .mul ∨ op = .div)
    (hl : Reads nested m .term l) (hr : Reads nested m .unary r) : Reads nested m .term (.binary op l r) := by
  intro c rest hw hm hrest
  rw [ParseTree.words, List.append_assoc, List.cons_append] at hw
  have hl := hl c _ hw hm (by rcases hop with rfl | rfl <;> simp [Operator.sign, Word.kind, ParseTree.Phrase.absorbs])
  rw [ParseTree.expr?]
  refine Reaches.operation hl (fun c₁ hw₁ => ?_) fun c₂ hw₂ hlt => hr c₂ rest hw₂ (by omega) hrest
  obtain ⟨hp, hpos, hskip⟩ := skipSign_of_words hw₁
  exact ⟨by rw [hp]; rcases hop with rfl | rfl <;> rfl, hpos, hskip⟩

theorem reads_juxtapose {l r : ParseTree} (hopen : r.words.head? = some (.sign .openParen))
    (hl : Reads nested m .term l) (hr : Reads nested m .unary r) : Reads nested m .term (.juxtapose l r) := by
  intro c rest hw hm hrest
  rw [ParseTree.words, List.append_assoc] at hw
  have hhead : (r.words ++ rest).head? = some (.sign .openParen) := by rw [List.head?_append, hopen]; rfl
  have hl := hl c _ hw hm (by rw [hhead]; simp [Word.kind, ParseTree.Phrase.absorbs])
  rw [ParseTree.expr?]
  refine Reaches.operation hl (fun c₁ hw₁ => ?_) fun c₂ hw₂ hlt => hr c₂ rest hw₂ (by omega) hrest
  have hp : c₁.peek? = some .openParen := by rw [Cursor.peek?_eq, hw₁, hhead]; rfl
  have hpos : 0 < c₁.rest.length := by
    cases hws : c₁.words with
    | nil => simp [Cursor.peek?_eq, hws] at hp
    | cons w ws => exact Cursor.length_pos_of_words hws
  exact ⟨by rw [hp]; rfl, hpos, c₁, by simp [skipSign, hp], hw₁, le_rfl⟩

/-- Before anything that is no factor the reader of factors ends. -/
theorem reaches_term {t : ParseTree} (h : Reads nested m .term t) {c : Cursor} {rest : List Word}
    (hw : c.words = t.words ++ rest) (hm : c.rest.length ≤ m)
    (hrest : ∀ w, rest.head? = some w → w.kind ∉ ParseTree.Phrase.absorbs .expr) :
    Reaches ParseTree.Phrase.stop (term nested c).result t.expr? rest c.rest.length := by
  have hquote : ∀ w, rest.head? = some w → w.kind ∉ ParseTree.Phrase.absorbs .term :=
    fun w hw hk => hrest w hw (List.mem_cons.mpr (Or.inl (List.mem_singleton.mp hk)))
  refine Reaches.stop (h c rest hw hm hquote) fun n e c' hw' => operations_stop ?_
  rw [Cursor.peek?_eq, hw']
  cases hh : rest.head? with
  | none => rfl
  | some w =>
    have := hrest w hh
    simp only [ParseTree.Phrase.absorbs, List.mem_cons, List.not_mem_nil, or_false, not_or] at this
    rw [Option.map_some, Option.bind_some]
    unfold Operator.multiplicative?
    split <;> simp_all

theorem reads_expr {t : ParseTree} (h : Reads nested m .term t) : Reads nested m .expr t :=
  fun _ _ hw hm hrest => (reaches_term h hw hm hrest).then

theorem reads_additive {op : Operator} {l r : ParseTree} (hop : op = .add ∨ op = .sub)
    (hl : Reads nested m .expr l) (hr : Reads nested m .term r) : Reads nested m .expr (.binary op l r) := by
  intro c rest hw hm hrest
  rw [ParseTree.words, List.append_assoc, List.cons_append] at hw
  have hl := hl c _ hw hm (by rcases hop with rfl | rfl <;> simp [Operator.sign, Word.kind, ParseTree.Phrase.absorbs])
  rw [ParseTree.expr?]
  refine Reaches.operation hl (fun c₁ hw₁ => ?_) fun c₂ hw₂ hlt => reaches_term hr hw₂ (by omega) hrest
  obtain ⟨hp, hpos, hskip⟩ := skipSign_of_words hw₁
  exact ⟨by rw [hp]; rcases hop with rfl | rfl <;> rfl, hpos, hskip⟩

/-! ## Matrices -/

/-- Rows make a grid when they are as long as the first, which has an entry. -/
theorem isSome_ofRows? {β : Type} {rows : List (List β)} : (Grid.ofRows? rows).isSome = true ↔
    ∃ first, rows.head? = some first ∧ first ≠ [] ∧ ∀ r ∈ rows, r.length = first.length := by
  cases rows with
  | nil => simp [Grid.ofRows?]
  | cons first rest =>
    simp only [Grid.ofRows?]
    split
    · rename_i h
      simp only [Bool.or_eq_true, List.isEmpty_iff, List.any_eq_true, bne_iff_ne, ne_eq] at h
      simp only [Option.isSome_none, Bool.false_eq_true, false_iff]
      rintro ⟨_, hf, hne, hall⟩
      cases hf
      rcases h with h | ⟨r, hr, hlen⟩
      · exact hne h
      · exact hlen (hall r (List.mem_cons_of_mem _ hr))
    · rename_i h
      simp only [Bool.or_eq_true, List.isEmpty_iff, List.any_eq_true, bne_iff_ne, ne_eq, not_or, not_exists, not_and,
        not_not] at h
      exact ⟨fun _ => ⟨first, rfl, h.1, List.forall_mem_cons.mpr ⟨rfl, h.2⟩⟩, fun _ => rfl⟩

/-- Rows that can still become a grid. -/
def Level {β : Type} (rows : List (List β)) : Prop := rows = [] ∨ (Grid.ofRows? rows).isSome = true

omit [Scalar α] in
/-- The check of a row is whether it goes with the rows before it. -/
theorem checkRow_iff {rows : List (List (Expr α))} {row : List (Expr α)} {span : Span} (h : Level rows) (hrow : row ≠ []) :
    checkRow rows row span = .ok () ↔ (Grid.ofRows? (rows ++ [row])).isSome = true := by
  unfold checkRow
  rw [isSome_ofRows?]
  rcases h with rfl | h
  · simp [pure, Except.pure, hrow]
  · obtain ⟨first, hf, hne, hall⟩ := isSome_ofRows?.mp h
    rw [hf]
    by_cases hlen : first.length = row.length
    · simp only [hlen, if_true, pure, Except.pure, true_iff]
      refine ⟨first, by rw [List.head?_append, hf]; rfl, hne, ?_⟩
      exact List.forall_mem_append.mpr ⟨hall, by simpa using hlen.symm⟩
    · simp only [hlen, if_false, throw_ne_ok, false_iff]
      rintro ⟨first', hf', -, hall'⟩
      rw [List.head?_append, hf] at hf'
      cases hf'
      exact hlen (hall' row (by simp)).symm

/-- Rows that make no grid make none with more rows after them. -/
theorem ofRows?_append_eq_none {β : Type} {rows more : List (List β)} (hne : rows ≠ []) (h : ¬ (Grid.ofRows? rows).isSome = true) :
    Grid.ofRows? (rows ++ more) = none := by
  rw [← Option.not_isSome_iff_eq_none, isSome_ofRows?]
  rw [isSome_ofRows?] at h
  rintro ⟨first, hf, hfirst, hall⟩
  refine h ⟨first, ?_, hfirst, (List.forall_mem_append.mp hall).1⟩
  obtain ⟨r, rs, rfl⟩ := List.exists_cons_of_ne_nil hne
  exact hf

/-- The values of all rows, after the rows that are complete and the beginning of the one under way. -/
def all? (rows : List (List (Expr α))) (row : List (Expr α)) (ts : List ParseTree) (tss : List (List ParseTree)) :
    Option (List (List (Expr α))) :=
  do return rows ++ (row ++ (← ParseTree.row? ts)) :: (← ParseTree.rows? tss)

section
variable {rows : List (List (Expr α))} {row : List (Expr α)}

theorem all?_cons {t : ParseTree} {ts : List ParseTree} {tss : List (List ParseTree)} :
    all? rows row (t :: ts) tss = t.expr?.bind fun v => all? rows (row ++ [v]) ts tss := by
  unfold all?
  rw [ParseTree.row?]
  cases t.expr? (α := α) with
  | none => rfl
  | some v => cases ParseTree.row? (α := α) ts <;> simp

theorem all?_nil_cons {ts : List ParseTree} {tss : List (List ParseTree)} :
    all? rows row [] (ts :: tss) = all? (rows ++ [row]) [] ts tss := by
  unfold all?
  rw [ParseTree.row?, ParseTree.rows?]
  cases ParseTree.row? (α := α) ts with
  | none => rfl
  | some vs => cases ParseTree.rows? (α := α) tss <;> simp

theorem all?_nil_nil : all? rows row [] [] = some (rows ++ [row]) := by
  simp [all?, ParseTree.row?, ParseTree.rows?]

end

/-- A matrix is the grid of all of its rows, none of which is complete at the start. -/
theorem expr?_matrix (ts : List ParseTree) (tss : List (List ParseTree)) :
    (ParseTree.matrix (ts :: tss)).expr? (α := α) = ((all? [] [] ts tss).bind Grid.ofRows?).map .matrix := by
  rw [ParseTree.expr?, ParseTree.rows?, all?]
  cases ParseTree.row? (α := α) ts with
  | none => rfl
  | some vs =>
    cases ParseTree.rows? (α := α) tss with
    | none => rfl
    | some vss => cases h : Grid.ofRows? (vs :: vss) <;> simp [h]

/-- The outcome of reading the rest of a matrix whose rows come to these values. -/
def ReadsRows (outcome : Except Problem ((List (List (Expr α)) × Token) × Cursor)) (all? : Option (List (List (Expr α))))
    (rest : List Word) (m : Nat) : Prop :=
  match all?.bind Grid.ofRows? with
  | none => ∃ p, outcome = .error p
  | some g => ∃ (all : List (List (Expr α))) (closing : Token) (c : Cursor), outcome = .ok ((all, closing), c) ∧
      Grid.ofRows? all = some g ∧ c.words = rest ∧ c.rest.length < m

/-- What follows an entry: `row` ends with it, and `o` is the sign after it. -/
def afterSign (nested : ExprReader α) (n : Nat) (rows : List (List (Expr α))) (row : List (Expr α)) (span : Span)
    (o : Token) (c : Cursor) : Except Problem ((List (List (Expr α)) × Token) × Cursor) :=
  match o.kind with
  | .comma => (entries nested n rows row (some span.start) c).result
  | .semicolon => do
    checkRow rows row span
    (entries nested n (rows ++ [row]) [] none c).result
  | .closeSquare => do
    checkRow rows row span
    return ((rows ++ [row], o), c)
  | _ => throw (Cursor.unexpected o afterEntry)

omit [Scalar α] in
theorem result_entries_succ {n : Nat} {rows : List (List (Expr α))} {row : List (Expr α)} {start : Option Nat}
    {c : Cursor} : (entries nested (n + 1) rows row start c).result = (do
      let (entry, c) ← (nested c).result
      let (o, c) ← c.next
      afterSign nested n rows (row ++ [entry.value]) ⟨start.getD entry.span.start, entry.span.stop⟩ o c) := by
  simp only [entries, Logged.result_bind, Logged.result_lift]
  congr 1
  funext entry
  congr 1
  funext o
  unfold afterSign
  cases o.1.kind with
  | semicolon => exact Logged.result_bind _ _
  | closeSquare => exact Logged.result_bind _ _
  | _ => rfl

/-- One entry with the sign after it. -/
theorem reads_entry {k n : Nat} {t : ParseTree} {ts : List ParseTree} {tss : List (List ParseTree)}
    {rows : List (List (Expr α))} {row : List (Expr α)} {start : Option Nat} {c : Cursor} {kind : TokenKind}
    {ws rest : List Word} (ht : ReadsNested α t) (hw : c.words = t.words ++ .sign kind :: ws) (hk : c.rest.length ≤ k)
    (hkind : kind ∈ [.closeParen, .comma, .semicolon, .closeSquare])
    (h : ∀ v span (o : Token) (c' : Cursor), o.kind = kind → c'.words = ws → c'.rest.length < c.rest.length →
      ReadsRows (afterSign (exprWithin k) n rows (row ++ [v]) span o c') (all? rows (row ++ [v]) ts tss) rest
        c.rest.length) :
    ReadsRows (entries (exprWithin k) (n + 1) rows row start c).result (all? rows row (t :: ts) tss) rest
      c.rest.length := by
  have hr := ht k c _ ws hw hk hkind
  rw [result_entries_succ, all?_cons]
  cases hv : t.expr? (α := α) with
  | none =>
    rw [hv] at hr
    obtain ⟨p, hp⟩ := hr
    exact ⟨p, by rw [hp]; rfl⟩
  | some v =>
    rw [hv] at hr
    obtain ⟨_, e, c₁, hr, rfl, hw₁, hl₁, -⟩ := hr
    have hr : (exprWithin k c).result = .ok (e, c₁) := hr
    obtain ⟨o, c₂, ho, hword, hw₂, hl₂, -⟩ := Cursor.next_of_words hw₁
    rw [hr, ok_bind, Option.bind_some]
    dsimp only
    rw [ho, ok_bind]
    exact h e.value _ o c₂ (Token.word_of_sign hword) hw₂ (by omega)

/-- A row that is complete is refused, or goes with the rows before it. -/
theorem reads_row {tss : List (List ParseTree)} {rows : List (List (Expr α))} {row : List (Expr α)}
    {span : Span} {rest : List Word} {m : Nat} {more : Except Problem ((List (List (Expr α)) × Token) × Cursor)}
    (hrow : row ≠ []) (hrows : Level rows)
    (h : (Grid.ofRows? (rows ++ [row])).isSome = true → ReadsRows more (all? rows row [] tss) rest m) :
    ReadsRows (do checkRow rows row span; more) (all? rows row [] tss) rest m := by
  by_cases hg : (Grid.ofRows? (rows ++ [row])).isSome = true
  · rw [(checkRow_iff hrows hrow).mpr hg, ok_bind]
    exact h hg
  · have hnone : (all? rows row [] tss).bind Grid.ofRows? = none := by
      unfold all?
      rw [ParseTree.row?]
      cases ParseTree.rows? (α := α) tss with
      | none => rfl
      | some vss =>
        have : Grid.ofRows? ((rows ++ [row]) ++ vss) = none := ofRows?_append_eq_none (by simp) hg
        simpa using this
    cases hc : checkRow rows row span with
    | ok _ => exact absurd ((checkRow_iff hrows hrow).mp hc) hg
    | error p =>
      unfold ReadsRows
      rw [hnone]
      exact ⟨p, rfl⟩

theorem reads_entries {k n : Nat} {t : ParseTree} {ts : List ParseTree} {tss : List (List ParseTree)}
    {rows : List (List (Expr α))} {row : List (Expr α)} {start : Option Nat} {c : Cursor} {rest : List Word}
    (htss : ∀ row ∈ tss, row ≠ []) (hr : ∀ x ∈ t :: ts, ReadsNested α x)
    (hrs : ∀ row ∈ tss, ∀ x ∈ row, ReadsNested α x)
    (hw : c.words = ParseTree.wordsOfRow (t :: ts) ++ (ParseTree.separator tss .semicolon ++
      (ParseTree.wordsOfRows tss ++ .sign .closeSquare :: rest)))
    (hk : c.rest.length ≤ k) (hn : c.rest.length ≤ n) (hrows : Level rows) :
    ReadsRows (entries (exprWithin k) n rows row start c).result (all? rows row (t :: ts) tss) rest c.rest.length := by
  -- One entry each time: behind it the row goes on, another one begins, or the matrix ends.
  induction n generalizing t ts tss rows row start c with
  | zero =>
    cases hc : c.words with
    | nil => simp [hc] at hw
    | cons w ws =>
      have := Cursor.length_pos_of_words hc
      omega
  | succ n ih =>
    obtain ⟨ht, hr⟩ := List.forall_mem_cons.mp hr
    have longer {c' : Cursor} (hl : c'.rest.length < c.rest.length) {outcome all} :
        ReadsRows (α := α) outcome all rest c'.rest.length → ReadsRows outcome all rest c.rest.length := by
      unfold ReadsRows
      split
      · exact id
      · rintro ⟨all, closing, c'', ho, hg, hw, hl'⟩
        exact ⟨all, closing, c'', ho, hg, hw, by omega⟩
    rw [ParseTree.wordsOfRow] at hw
    cases ts with
    | cons t' ts =>
      simp only [ParseTree.separator, List.isEmpty_cons, Bool.false_eq_true, if_false, List.append_assoc,
        List.singleton_append] at hw
      refine reads_entry ht hw hk (by simp) fun v span o c' ho hw' hl => ?_
      unfold afterSign
      rw [ho]
      exact longer hl (ih htss hr hrs hw' (by omega) (by omega) hrows)
    | nil =>
      cases tss with
      | nil =>
        simp only [ParseTree.separator, ParseTree.wordsOfRow, ParseTree.wordsOfRows, List.isEmpty_nil, if_true,
          List.append_nil, List.nil_append] at hw
        refine reads_entry ht hw hk (by simp) fun v span o c' ho hw' hl => ?_
        unfold afterSign
        rw [ho]
        refine reads_row (by simp) hrows fun hg => ?_
        rw [all?_nil_nil]
        obtain ⟨g, hg⟩ := Option.isSome_iff_exists.mp hg
        unfold ReadsRows
        rw [Option.bind_some, hg]
        exact ⟨_, o, c', rfl, hg, hw', hl⟩
      | cons next tss =>
        simp only [ParseTree.separator, ParseTree.wordsOfRow, ParseTree.wordsOfRows, List.isEmpty_nil, if_true,
          List.append_nil, List.isEmpty_cons, Bool.false_eq_true, if_false, List.append_assoc, List.singleton_append] at hw
        refine reads_entry ht hw hk (by simp) fun v span o c' ho hw' hl => ?_
        unfold afterSign
        rw [ho]
        refine reads_row (by simp) hrows fun hg => ?_
        rw [all?_nil_cons]
        obtain ⟨hne, htss'⟩ := List.forall_mem_cons.mp htss
        obtain ⟨hrn, hrs'⟩ := List.forall_mem_cons.mp hrs
        obtain ⟨t', ts, rfl⟩ := List.exists_cons_of_ne_nil hne
        exact longer hl (ih htss' hrn hrs' hw' (by omega) (by omega) (Or.inr hg))

/-- Behind an opening bracket that is not closed at once there are the entries of a matrix. -/
theorem operand_of_bracket {k : Nat} {c c₁ : Cursor} {o : Token} (hp : c.peek? = some .openSquare)
    (hn : c.next = .ok (o, c₁)) (ho : o.kind = .openSquare) (hp₁ : c₁.peek? ≠ some .closeSquare) :
    (operand (exprWithin (α := α) k) c).result =
      (entries (exprWithin (α := α) k) c₁.rest.length [] [] none c₁).result >>= fun r =>
        (Grid.ofRows? r.1.1).elim (.error ⟨.emptyMatrix, [⟨o.span.start, r.1.2.span.stop⟩]⟩)
          fun g => .ok (⟨.matrix g, ⟨o.span.start, r.1.2.span.stop⟩⟩, r.2) := by
  simp only [operand, hp, if_true, matrixWith, Logged.result_bind, Logged.result_lift, hn, ok_bind, ho, ne_eq,
    not_true_eq_false, if_false, hp₁]
  cases (entries (exprWithin (α := α) k) c₁.rest.length [] [] none c₁).result with
  | error p => rfl
  | ok r =>
    simp only [ok_bind]
    cases Grid.ofRows? r.1.1 <;> rfl

theorem reads_matrix {tss : List (List ParseTree)} (hne : tss ≠ []) (htss : ∀ row ∈ tss, row ≠ [])
    (hfits : ∀ row ∈ tss, ∀ x ∈ row, ParseTree.Fits .expr x) (hrs : ∀ row ∈ tss, ∀ x ∈ row, ReadsNested α x) (k : Nat) :
    Reads (exprWithin (α := α) k) (k + 1) .operand (.matrix tss) := by
  intro c rest hw hm _
  obtain ⟨row, tss, rfl⟩ := List.exists_cons_of_ne_nil hne
  obtain ⟨hrow, htss'⟩ := List.forall_mem_cons.mp htss
  obtain ⟨hr, hrs'⟩ := List.forall_mem_cons.mp hrs
  obtain ⟨t, ts, rfl⟩ := List.exists_cons_of_ne_nil hrow
  rw [ParseTree.words, ParseTree.wordsOfRows, List.cons_append, List.append_assoc, List.append_assoc, List.append_assoc,
    List.singleton_append] at hw
  obtain ⟨o, c₁, hn, ho, hw₁, hl, hp⟩ := Cursor.next_of_words hw
  have hp₁ : c₁.peek? ≠ some .closeSquare := by
    obtain ⟨w, ws, hws, hk⟩ := head_of_fits (hfits _ List.mem_cons_self t List.mem_cons_self)
    rw [Cursor.peek?_eq, hw₁, ParseTree.wordsOfRow, hws, List.cons_append, List.cons_append, List.head?_cons, Option.map_some]
    intro he
    rw [Option.some.inj he] at hk
    exact absurd hk (by decide)
  have hr : ReadsRows (entries (exprWithin (α := α) k) c₁.rest.length [] [] none c₁).result (all? [] [] (t :: ts) tss) rest
      c₁.rest.length := reads_entries htss' hr hrs' hw₁ (by omega) le_rfl (Or.inl rfl)
  show Reaches _ (operand _ c).result _ _ _
  rw [operand_of_bracket hp hn (Token.word_of_sign ho) hp₁, expr?_matrix]
  unfold ReadsRows at hr
  cases hg : (all? (α := α) [] [] (t :: ts) tss).bind Grid.ofRows? with
  | none =>
    rw [hg] at hr
    obtain ⟨p, hr⟩ := hr
    exact ⟨p, by rw [hr]; rfl⟩
  | some g =>
    rw [hg] at hr
    obtain ⟨all, closing, c₂, hr, hall, hw₂, hl₂⟩ := hr
    exact ⟨c₂.rest.length, ⟨.matrix g, ⟨o.span.start, closing.span.stop⟩⟩, c₂, by rw [hr, ok_bind, hall]; rfl, rfl, hw₂,
      by omega, le_rfl⟩

/-! ## All trees -/

/-- A tree that fits is read as it should be. -/
theorem reads_of_fits {p : Phrase} {t : ParseTree} (h : t.Fits p) (k : Nat) :
    Reads (exprWithin (α := α) k) (k + 1) p t := by
  induction h generalizing k with
  | number s => exact reads_number s
  | name n => exact reads_name n
  | paren _ ih => exact reads_paren (readsNested ih) k
  | matrix hne hrows hfits ih =>
    exact reads_matrix hne hrows hfits (fun row hrow x hx => readsNested (ih row hrow x hx)) k
  | operand _ ih => exact reads_primed (ih k)
  | transpose _ ih => exact reads_transpose (ih k)
  | primed h ih => exact reads_unary h (ih k)
  | neg h ih => exact reads_neg h (ih k)
  | unary _ ih => exact reads_term (ih k)
  | multiplicative hop _ _ ihl ihr => exact reads_multiplicative hop (ihl k) (ihr k)
  | juxtapose _ _ hopen ihl ihr => exact reads_juxtapose hopen (ihl k) (ihr k)
  | term _ ih => exact reads_expr (ih k)
  | additive hop _ _ ihl ihr => exact reads_additive hop (ihl k) (ihr k)

/-- A whole expression, before its end. -/
theorem expr_of_words {t : ParseTree} (h : t.Fits .expr) {c : Cursor} {rest : List Word}
    (hw : c.words = t.words ++ .sign .semicolon :: rest) :
    match t.expr? (α := α) with
    | none => ∃ p, (expr (α := α) c).result = .error p
    | some v => ∃ e c', (expr (α := α) c).result = .ok (e, c') ∧ e.value = v ∧ c'.words = .sign .semicolon :: rest ∧
        c'.rest.length < c.rest.length := by
  have hr := readsNested (α := α) (reads_of_fits h) c.rest.length c _ rest hw le_rfl (by simp [Word.kind])
  unfold Reaches at hr
  cases hv : t.expr? (α := α) with
  | none =>
    rw [hv] at hr
    exact hr
  | some v =>
    rw [hv] at hr
    obtain ⟨_, e, c', ho, he, hw', hl, -⟩ := hr
    exact ⟨e, c', ho, he, hw', hl⟩

/-- A whole expression, up to the end of the text. -/
theorem expr_of_all_words {t : ParseTree} (h : t.Fits .expr) {c : Cursor} (hw : c.words = t.words) {v : Expr α}
    (hv : t.expr? = some v) : ∃ e c', (expr (α := α) c).result = .ok (e, c') ∧ e.value = v ∧ c'.words = [] := by
  obtain ⟨w, ws, hhead, -⟩ := head_of_fits h
  have hpos : 0 < c.rest.length := Cursor.length_pos_of_words (hw.trans hhead)
  obtain ⟨k, hk⟩ := Nat.exists_eq_succ_of_ne_zero hpos.ne'
  have hr := reads_of_fits (α := α) h k c [] (by simpa using hw) hk.le (by simp)
  have hr := Reaches.stop hr fun n e c hc => operations_stop (by rw [Cursor.peek?_eq, hc]; rfl)
  unfold Reaches at hr
  rw [hv] at hr
  obtain ⟨_, e, c', ho, he, hw', -, -⟩ := hr
  exact ⟨e, c', by rw [expr, hk]; exact ho, he, hw'⟩

/-! ## Definitions -/

theorem definition_of_words {s : Statement} (h : s.body.Fits .expr) {c : Cursor} {rest : List Word}
    (hw : c.words = s.words ++ rest) :
    match s.body.expr? (α := α) with
    | none => ∃ p, (definition (α := α) c).result = .error p
    | some v => ∃ (d : Definition α) (c' : Cursor), (definition c).result = .ok (d, c') ∧ d.name = s.name ∧ d.value = v ∧
        c'.words = rest ∧ c'.rest.length < c.rest.length := by
  rw [Statement.words, List.cons_append, List.cons_append, List.append_assoc, List.singleton_append] at hw
  obtain ⟨name, c₁, hname, hword, hw₁, hl₁⟩ := Cursor.expect_of_words (k := .name) hw rfl
  obtain ⟨_, c₂, hassign, -, hw₂, hl₂⟩ := Cursor.expect_of_words (k := .assign) hw₁ rfl
  have hend : c₁.atEnd ≠ true := by
    rw [ne_eq, Cursor.atEnd_iff, hw₁]
    exact List.cons_ne_nil _ _
  have hr := expr_of_words (α := α) h hw₂
  cases hv : s.body.expr? (α := α) with
  | none =>
    rw [hv] at hr
    obtain ⟨p, hp⟩ := hr
    exact ⟨p, by simp [definition, hname, hend, hassign, hp]⟩
  | some v =>
    rw [hv] at hr
    obtain ⟨e, c₃, he, rfl, hw₃, hl₃⟩ := hr
    obtain ⟨semicolon, c₄, hsemicolon, -, hw₄, hl₄⟩ := Cursor.expect_of_words (k := .semicolon) hw₃ rfl
    have hp : c₃.peek? ≠ some .name := by simp [Cursor.peek?_eq, hw₃, Word.kind]
    exact ⟨⟨name.lexeme, name.span, e.value, ⟨name.span.start, semicolon.span.stop⟩⟩, c₄,
      by simp [definition, hname, hend, hassign, he, hp, hsemicolon], (word_eq_name hword).2, rfl, hw₄, by omega⟩

/-- The definitions that are read are those that are written, with the values of their trees. -/
theorem readDefinitions_of_words {ss : List Statement} (hfits : ∀ s ∈ ss, s.body.Fits .expr) {n : Nat}
    {done ds : List (Definition α)} {c : Cursor} (hw : c.words = ss.flatMap Statement.words) (hn : c.rest.length ≤ n)
    (h : (Program.readDefinitions n done c).result = .ok ds) :
    ∃ more, ds = done ++ more ∧ List.Forall₂ (fun s d => d.name = s.name ∧ s.body.expr? = some d.value) ss more := by
  induction ss generalizing n done c with
  | nil =>
    have hend : c.atEnd = true := Cursor.atEnd_iff.mpr hw
    refine ⟨[], ?_, .nil⟩
    cases n with
    | zero =>
      cases h
      simp
    | succ n =>
      simp only [Program.readDefinitions, hend, if_true] at h
      cases h
      simp
  | cons s ss ih =>
    obtain ⟨hs, hfits⟩ := List.forall_mem_cons.mp hfits
    rw [List.flatMap_cons] at hw
    -- Something is left, so the bound is not used up.
    have hpos := Cursor.length_pos_of_words (show c.words = _ :: _ by rw [hw, Statement.words, List.cons_append])
    obtain ⟨n, rfl⟩ := Nat.exists_eq_succ_of_ne_zero (by omega : n ≠ 0)
    have hend : c.atEnd ≠ true := by
      rw [ne_eq, Cursor.atEnd_iff, hw, Statement.words, List.cons_append]
      exact List.cons_ne_nil _ _
    have hr := definition_of_words (α := α) hs hw
    rw [Program.readDefinitions] at h
    simp only [hend, Bool.false_eq_true, if_false, Logged.result_bind, Logged.result_tell, Logged.result_lift] at h
    cases hv : s.body.expr? (α := α) with
    | none =>
      rw [hv] at hr
      obtain ⟨p, hp⟩ := hr
      simp [hp] at h
    | some v =>
      rw [hv] at hr
      obtain ⟨d, c', hd, hname, rfl, hw', hl⟩ := hr
      rw [hd, ok_bind] at h
      obtain ⟨-, -, h⟩ := bind_eq_ok.mp h
      obtain ⟨-, -, h⟩ := bind_eq_ok.mp h
      obtain ⟨more, rfl, hmore⟩ := ih hfits hw' (by omega) h
      exact ⟨d :: more, by simp, .cons ⟨hname, hv⟩ hmore⟩

end Grammar

/-- What is written for the definitions of a source is the value of their trees. -/
theorem Program.written_of_spell {ss : List Statement} {source : String} {ds : List (Definition α)}
    (hs : Statement.Spell ss source) (h : Program.written source = .ok ds) :
    List.Forall₂ (fun s d => d.name = s.name ∧ s.body.expr? = some d.value) ss ds := by
  obtain ⟨more, rfl, hmore⟩ := Grammar.readDefinitions_of_words hs.2 hs.1 le_rfl h
  exact hmore

/-- Every definition of a source that can be read has a value in the program. -/
theorem Program.exists_get_of_spell {source : String} {p : Program α} (h : Program.parse source = .ok p)
    {ss : List Statement} (hss : Statement.Spell ss source) {s : Statement} (hs : s ∈ ss) :
    ∃ value, p.get s.name = .ok value := by
  obtain ⟨ds, es, hds, hes, hps⟩ := Program.parse_eq_ok.mp h
  obtain ⟨d, hd, hname, -⟩ := exists_mem_right (Program.written_of_spell hss hds) hs
  have hmem : d.name ∈ es.map (·.name) := by
    rw [Program.resolve_names hes]
    exact List.mem_map_of_mem (Program.mem_sortByName.mpr hd)
  obtain ⟨e, he, hen⟩ := List.mem_map.mp hmem
  obtain ⟨⟨n, value⟩, hr, hfinish⟩ := exists_mem_right hps he
  obtain ⟨_, hn, -⟩ := Program.finish_eq_ok.mp hfinish
  rw [← hname, ← hen, ← hn]
  exact Program.exists_get hr

end SymbolicAlgebra
