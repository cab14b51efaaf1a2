/-
  SymbolicAlgebra.Proofs.Grammar.Blanks — blanks decide where things are, and nothing else.

  Two sources with the same marks, the tokens without blanks and places, are read side by side. Their
  cursors run over different tokens and the bounds on the loops differ, but after every rule the marks
  that are left are the same again, and the values that were read are; or both readings fail, for the
  same cause (`Alike`). A loop never uses up its bound before the marks, so a bound that is used up on
  one side only still finds the other side at the end of the source (`Starves`).
-/

import SymbolicAlgebra.Proofs.Rational
import SymbolicAlgebra.Proofs.Grammar.Completeness

namespace SymbolicAlgebra

/-! ## Outcomes that are the same up to places -/

/-- Both computations succeed with results that correspond, or both fail for the same cause. -/
def Alike {β γ : Type} (R : β → γ → Prop) : Except Problem β → Except Problem γ → Prop
  | .ok b, .ok c => R b c
  | .error e, .error e' => e.cause = e'.cause
  | _, _ => False

namespace Alike

variable {ν β γ δ η : Type} {R R' : β → γ → Prop} {Q : δ → η → Prop}

theorem imp {x : Except Problem β} {y : Except Problem γ} (h : Alike R x y) (hR : ∀ b c, R b c → R' b c) :
    Alike R' x y := by
  cases x with
  | error e => cases y with
    | error e' => exact h
    | ok c => exact h.elim
  | ok b => cases y with
    | error e' => exact h.elim
    | ok c => exact hR b c h

theorem bind {x : Except Problem β} {y : Except Problem γ} {f : β → Except Problem δ} {g : γ → Except Problem η}
    (h : Alike R x y) (hf : ∀ b c, R b c → Alike Q (f b) (g c)) : Alike Q (x >>= f) (y >>= g) := by
  cases x with
  | error e => cases y with
    | error e' => exact h
    | ok c => exact h.elim
  | ok b => cases y with
    | error e' => exact h.elim
    | ok c => exact hf b c h

theorem result_bind {x : Logged ν Problem β} {y : Logged ν Problem γ} {f : β → Logged ν Problem δ}
    {g : γ → Logged ν Problem η} (h : Alike R x.result y.result)
    (hf : ∀ b c, R b c → Alike Q (f b).result (g c).result) : Alike Q (x >>= f).result (y >>= g).result := by
  rw [Logged.result_bind, Logged.result_bind]
  exact h.bind hf

theorem mapM {f : β → Except Problem δ} {g : γ → Except Problem η} {xs : List β} {ys : List γ}
    (h : List.Forall₂ R xs ys) (hf : ∀ x y, R x y → Alike Q (f x) (g y)) :
    Alike (List.Forall₂ Q) (xs.mapM f) (ys.mapM g) := by
  induction h with
  | nil => exact List.Forall₂.nil
  | cons hxy _ ih =>
    rw [List.mapM_cons, List.mapM_cons]
    exact (hf _ _ hxy).bind fun _ _ hhead => ih.bind fun _ _ htail => List.Forall₂.cons hhead htail

theorem foldlM {f : β → δ → Except Problem β} {g : γ → δ → Except Problem γ} {s : β} {t : γ} (xs : List δ)
    (h : R s t) (hf : ∀ s t, R s t → ∀ x, Alike R (f s x) (g t x)) : Alike R (xs.foldlM f s) (xs.foldlM g t) := by
  induction xs generalizing s t with
  | nil => exact h
  | cons x xs ih =>
    rw [List.foldlM_cons, List.foldlM_cons]
    exact (hf s t h x).bind fun _ _ h => ih h

end Alike

/-! ## Cursors with the same marks -/

namespace Cursor

/-- The marks that are left. -/
def marks (c : Cursor) : List (TokenKind × String) := Token.marks c.rest

variable {c c' : Cursor}

theorem length_marks_le (c : Cursor) : c.marks.length ≤ c.rest.length := by
  rw [marks, Token.marks, List.length_map]
  exact List.length_filter_le _ _

theorem marks_skipBlanks (c : Cursor) : Token.marks c.skipBlanks.rest = c.marks := by
  obtain ⟨rest, stop⟩ := c
  show Token.marks (rest.dropWhile _) = Token.marks rest
  induction rest with
  | nil => rfl
  | cons t rest ih =>
    by_cases ht : t.kind = .whitespace
    · rw [List.dropWhile_cons_of_pos (by simp [ht]), ih]
      simp [Token.marks, ht]
    · rw [List.dropWhile_cons_of_neg (by simp [ht])]

/-- Passing over blanks stops at the first mark. -/
theorem skipBlanks_cases (c : Cursor) : (c.skipBlanks.rest = [] ∧ c.marks = []) ∨
    ∃ t rest, c.skipBlanks.rest = t :: rest ∧ c.marks = t.mark :: Token.marks rest := by
  have hmarks := c.marks_skipBlanks
  cases h : c.skipBlanks.rest with
  | nil =>
    rw [h] at hmarks
    exact Or.inl ⟨rfl, hmarks.symm⟩
  | cons t rest =>
    have ht : t.kind ≠ .whitespace := by
      have := List.head?_dropWhile_not (·.kind == .whitespace) c.rest
      rw [show c.rest.dropWhile (·.kind == .whitespace) = t :: rest from h] at this
      simpa using this
    rw [h] at hmarks
    exact Or.inr ⟨t, rest, rfl, by rw [← hmarks]; simp [Token.marks, ht]⟩

theorem peek?_marks (c : Cursor) : c.peek? = c.marks.head?.map Prod.fst := by
  rcases c.skipBlanks_cases with ⟨hrest, hmarks⟩ | ⟨t, rest, hrest, hmarks⟩ <;> rw [peek?, hrest, hmarks] <;> rfl

theorem peek?_congr (h : c.marks = c'.marks) : c.peek? = c'.peek? := by
  rw [peek?_marks, peek?_marks, h]

theorem length_marks_pos {kind : TokenKind} (h : c.peek? = some kind) : 0 < c.marks.length := by
  cases hmarks : c.marks with
  | nil => simp [peek?_marks, hmarks] at h
  | cons w ws => exact Nat.succ_pos _

theorem cause_unexpected {t t' : Token} (h : t.mark = t'.mark) (expected : List TokenKind) :
    (unexpected t expected).cause = (unexpected t' expected).cause := by
  obtain ⟨hkind, hlexeme⟩ := Prod.mk.inj h
  unfold unexpected
  rw [hkind, hlexeme]
  split <;> rfl

/-- What was read side by side corresponds, and the cursors after it have the same marks, fewer than
    `n`. -/
def After {β : Type} (R : β → β → Prop) (n : Nat) (r r' : β × Cursor) : Prop :=
  R r.1 r'.1 ∧ r.2.marks = r'.2.marks ∧ r.2.marks.length < n

theorem After.mono {β : Type} {R : β → β → Prop} {m n : Nat} (h : m ≤ n) (r r' : β × Cursor) (hr : After R m r r') :
    After R n r r' := ⟨hr.1, hr.2.1, by have := hr.2.2; omega⟩

theorem next_alike (h : c.marks = c'.marks) :
    Alike (After (fun t t' => t.mark = t'.mark) c.marks.length) c.next c'.next := by
  unfold next
  rcases c.skipBlanks_cases with ⟨hrest, hmarks⟩ | ⟨t, rest, hrest, hmarks⟩ <;>
    rcases c'.skipBlanks_cases with ⟨hrest', hmarks'⟩ | ⟨t', rest', hrest', hmarks'⟩ <;>
    rw [hrest, hrest']
  · exact rfl
  · simp [hmarks, hmarks'] at h
  · simp [hmarks, hmarks'] at h
  · rw [hmarks, hmarks'] at h
    obtain ⟨ht, hrest⟩ := List.cons.inj h
    refine ⟨ht, hrest, ?_⟩
    rw [hmarks]
    exact Nat.lt_succ_self _

theorem expect_alike (h : c.marks = c'.marks) (kind : TokenKind) :
    Alike (After (fun t t' => t.mark = t'.mark) c.marks.length) (c.expect kind) (c'.expect kind) := by
  unfold expect
  refine (next_alike h).bind ?_
  rintro ⟨t, c₁⟩ ⟨t', c₁'⟩ ⟨ht, hafter⟩
  dsimp only at ht ⊢
  rw [← (Prod.mk.inj ht).1]
  split
  · exact ⟨ht, hafter⟩
  · exact cause_unexpected ht [kind]

theorem next_starved (h : c.marks = []) : c.next = .error c.unexpectedEof := by
  unfold next
  rcases c.skipBlanks_cases with ⟨hrest, -⟩ | ⟨t, rest, -, hmarks⟩
  · rw [hrest]
  · simp [hmarks] at h

end Cursor

/-! ## The rules of the grammar -/

namespace Grammar

open Cursor

variable {α : Type}

/-- Both readers do the same wherever at most `m` marks are left. -/
def Agree {β : Type} (R : β → β → Prop) (m : Nat) (read read' : Cursor → Reading α (β × Cursor)) : Prop :=
  ∀ c c', c.marks = c'.marks → c.marks.length ≤ m →
    Alike (After R c.marks.length) (read c).result (read' c').result

/-- Values that may have been read in different places. -/
def SameValue {β : Type} (l l' : Located β) : Prop := l.value = l'.value

/-- At the end of the source the reader misses a token. -/
def Starves (read : ExprReader α) : Prop :=
  ∀ c, c.marks = [] → ∃ e, (read c).result = .error e ∧ e.cause = .unexpectedEof

theorem checkRow_alike (rows : List (List (Expr α))) (row : List (Expr α)) (span span' : Span) :
    Alike (fun _ _ => True) (checkRow rows row span) (checkRow rows row span') := by
  unfold checkRow
  split
  · split
    · trivial
    · exact rfl
  · trivial

variable {nested nested' : ExprReader α} {m : Nat}

section
variable (hs : Starves nested) (hs' : Starves nested') (hn : Agree SameValue m nested nested')
include hs hs' hn

/-- The entries of a matrix, with bounds that may differ. -/
theorem entries_alike {n n' : Nat} {rows : List (List (Expr α))} {row : List (Expr α)} {start start' : Option Nat}
    {c c' : Cursor} (h : c.marks = c'.marks) (hm : c.marks.length ≤ m) (hbound : c.marks.length ≤ n)
    (hbound' : c.marks.length ≤ n') :
    Alike (After (fun r r' => r.1 = r'.1) c.marks.length) (entries nested n rows row start c).result
      (entries nested' n' rows row start' c').result := by
  -- Either bound is long enough: where one of them ends, nothing is left and the other side starves.
  induction n generalizing n' rows row start start' c c' with
  | zero =>
    have hnil : c.marks = [] := List.length_eq_zero_iff.mp (by omega)
    cases n' with
    | zero => exact rfl
    | succ n' =>
      obtain ⟨e, he, hcause⟩ := hs' c' (h ▸ hnil)
      rw [result_entries_succ, he]
      exact hcause.symm
  | succ n ih =>
    cases n' with
    | zero =>
      have hnil : c.marks = [] := List.length_eq_zero_iff.mp (by omega)
      obtain ⟨e, he, hcause⟩ := hs c hnil
      rw [result_entries_succ, he]
      exact hcause
    | succ n' =>
      rw [result_entries_succ, result_entries_succ]
      refine (hn c c' h hm).bind ?_
      rintro ⟨e, c₁⟩ ⟨e', c₁'⟩ ⟨hvalue, hmarks, hless⟩
      refine (next_alike hmarks).bind ?_
      rintro ⟨t, c₂⟩ ⟨t', c₂'⟩ ⟨ht, hmarks, hless'⟩
      dsimp only at ht hmarks hless hless'
      have hkind : t.kind = t'.kind := (Prod.mk.inj ht).1
      have hvalue : e.value = e'.value := hvalue
      have hmore : c₂.marks.length ≤ c.marks.length := by omega
      unfold afterSign
      dsimp only
      rw [← hkind, ← hvalue]
      split
      · exact (ih hmarks (by omega) (by omega) (by omega)).imp (After.mono hmore)
      · refine (checkRow_alike ..).bind fun _ _ _ => ?_
        exact (ih hmarks (by omega) (by omega) (by omega)).imp (After.mono hmore)
      · refine (checkRow_alike ..).bind fun _ _ _ => ?_
        exact ⟨rfl, hmarks, by show c₂.marks.length < _; omega⟩
      · exact cause_unexpected ht _

theorem matrixWith_alike : Agree SameValue (m + 1) (matrixWith nested) (matrixWith nested') := by
  intro c c' h hm
  unfold matrixWith
  refine (next_alike h).result_bind ?_
  rintro ⟨t, c₁⟩ ⟨t', c₁'⟩ ⟨ht, hmarks, hless⟩
  dsimp only at hmarks hless ⊢
  rw [← (Prod.mk.inj ht).1, ← peek?_congr hmarks]
  split
  · exact cause_unexpected ht _
  · split
    · exact (next_alike hmarks).result_bind fun _ _ _ => rfl
    · have hlength := c₁.length_marks_le
      have hlength' := c₁'.length_marks_le
      rw [← hmarks] at hlength'
      refine (entries_alike hs hs' hn hmarks (by omega) hlength hlength').result_bind ?_
      rintro ⟨⟨rows, closing⟩, c₂⟩ ⟨⟨rows', closing'⟩, c₂'⟩ ⟨hrows, hmarks, hless'⟩
      cases hrows
      dsimp only at hmarks hless' ⊢
      split
      · exact ⟨rfl, hmarks, by show c₂.marks.length < _; omega⟩
      · exact rfl

end

/-- The transpose signs after an operand. The induction is on the marks that are left: while a sign is
    among them, neither bound is used up. -/
theorem transposes_alike {k n n' : Nat} {e e' : Located (Expr α)} {c c' : Cursor} (he : SameValue e e')
    (h : c.marks = c'.marks) (hk : c.marks.length < k) (hbound : c.marks.length ≤ n) (hbound' : c.marks.length ≤ n') :
    Alike (After SameValue k) (transposes n e c).result (transposes n' e' c').result := by
  induction k generalizing n n' e e' c c' with
  | zero => omega
  | succ k ih =>
    by_cases hpeek : c.peek? = some .quote
    · have hpos := length_marks_pos hpeek
      obtain ⟨n, rfl⟩ := Nat.exists_eq_succ_of_ne_zero (by omega : n ≠ 0)
      obtain ⟨n', rfl⟩ := Nat.exists_eq_succ_of_ne_zero (by omega : n' ≠ 0)
      unfold transposes
      rw [if_neg (by rw [hpeek]; simp), if_neg (by rw [← peek?_congr h, hpeek]; simp)]
      refine (next_alike h).result_bind ?_
      rintro ⟨t, c₁⟩ ⟨t', c₁'⟩ ⟨-, hmarks, hless⟩
      dsimp only at hmarks hless ⊢
      rw [← show e.value = e'.value from he]
      split
      · refine Alike.imp (ih ?_ hmarks ?_ ?_ ?_) (After.mono (Nat.le_succ k))
        · exact rfl
        all_goals omega
      · exact rfl
    · rw [transposes_stop hpeek, transposes_stop (peek?_congr h ▸ hpeek)]
      exact ⟨he, h, hk⟩

variable [Scalar α]

section
variable (hs : Starves nested) (hs' : Starves nested') (hn : Agree SameValue m nested nested')
include hs hs' hn

theorem operand_alike : Agree SameValue (m + 1) (operand nested) (operand nested') := by
  intro c c' h hm
  unfold operand
  rw [← peek?_congr h]
  split
  · refine (matrixWith_alike hs hs' hn c c' h hm).result_bind ?_
    rintro ⟨g, c₁⟩ ⟨g', c₁'⟩ ⟨hvalue, hafter⟩
    exact ⟨congrArg Expr.matrix hvalue, hafter⟩
  · refine (next_alike h).result_bind ?_
    rintro ⟨t, c₁⟩ ⟨t', c₁'⟩ ⟨ht, hmarks, hless⟩
    dsimp only at ht hmarks hless ⊢
    have hkind : t.kind = t'.kind := (Prod.mk.inj ht).1
    have hlexeme : t.lexeme = t'.lexeme := (Prod.mk.inj ht).2
    rw [← hkind]
    split
    · have hnumber : Alike Eq (number (α := α) t) (number t') := by
        unfold number
        rw [← hlexeme]
        split
        · exact rfl
        · exact rfl
      exact hnumber.result_bind fun _ _ hvalue => ⟨hvalue, hmarks, hless⟩
    · exact ⟨congrArg Expr.ofName hlexeme, hmarks, hless⟩
    · refine (hn c₁ c₁' hmarks (by omega)).result_bind ?_
      rintro ⟨e, c₂⟩ ⟨e', c₂'⟩ ⟨hvalue, hmarks, hless₂⟩
      refine (expect_alike hmarks .closeParen).result_bind ?_
      rintro ⟨_, c₃⟩ ⟨_, c₃'⟩ ⟨-, hmarks, hless₃⟩
      exact ⟨hvalue, hmarks, by dsimp only at *; omega⟩
    · exact cause_unexpected ht _

theorem postfixed_alike : Agree SameValue (m + 1) (postfixed nested) (postfixed nested') := by
  intro c c' h hm
  refine (operand_alike hs hs' hn c c' h hm).result_bind ?_
  rintro ⟨e, c₁⟩ ⟨e', c₁'⟩ ⟨hvalue, hmarks, hless⟩
  exact transposes_alike hvalue hmarks hless c₁.length_marks_le (hmarks ▸ c₁'.length_marks_le)

theorem unary_alike : Agree SameValue (m + 1) (unary nested) (unary nested') := by
  intro c c' h hm
  unfold unary
  rw [← peek?_congr h]
  split
  · exact postfixed_alike hs hs' hn c c' h hm
  · refine (next_alike h).result_bind ?_
    rintro ⟨_, c₁⟩ ⟨_, c₁'⟩ ⟨-, hmarks, hless⟩
    dsimp only at hmarks hless ⊢
    rw [← peek?_congr hmarks]
    split
    · exact (next_alike hmarks).result_bind fun _ _ ht => cause_unexpected ht.1 _
    · refine (postfixed_alike hs hs' hn c₁ c₁' hmarks (by omega)).result_bind ?_
      rintro ⟨e, c₂⟩ ⟨e', c₂'⟩ ⟨hvalue, hmarks, hless₂⟩
      exact ⟨congrArg Expr.neg hvalue, hmarks, by dsimp only at *; omega⟩

end

omit [Scalar α] in
theorem skipSign_alike {c c' : Cursor} (h : c.marks = c'.marks) :
    Alike (fun c₁ c₁' => c₁.marks = c₁'.marks ∧ c₁.marks.length ≤ c.marks.length) (skipSign c) (skipSign c') := by
  unfold skipSign
  rw [← peek?_congr h]
  split
  · exact ⟨h, le_refl _⟩
  · exact (next_alike h).bind fun _ _ hr => ⟨hr.2.1, hr.2.2.le⟩

theorem combine_alike (op : Operator) {l l' r r' : Located (Expr α)} (hl : SameValue l l') (hr : SameValue r r') :
    Alike SameValue (combine op l r).result (combine op l' r').result := by
  rw [result_combine, result_combine, ← show l.value = l'.value from hl, ← show r.value = r'.value from hr]
  split
  · exact rfl
  · exact rfl

/-- The operators after a value, as in `transposes_alike`. -/
theorem operations_alike {operator? : TokenKind → Option Operator} {read read' : ExprReader α}
    (hread : Agree SameValue m read read') {k n n' : Nat} {e e' : Located (Expr α)} {c c' : Cursor}
    (he : SameValue e e') (h : c.marks = c'.marks) (hm : c.marks.length ≤ m) (hk : c.marks.length < k)
    (hbound : c.marks.length ≤ n) (hbound' : c.marks.length ≤ n') :
    Alike (After SameValue k) (operations operator? read n e c).result (operations operator? read' n' e' c').result := by
  induction k generalizing n n' e e' c c' with
  | zero => omega
  | succ k ih =>
    cases hop : c.peek?.bind operator? with
    | none =>
      rw [operations_stop hop, operations_stop (peek?_congr h ▸ hop)]
      exact ⟨he, h, hk⟩
    | some op =>
      obtain ⟨kind, hpeek, -⟩ := Option.bind_eq_some_iff.mp hop
      have hpos := length_marks_pos hpeek
      obtain ⟨n, rfl⟩ := Nat.exists_eq_succ_of_ne_zero (by omega : n ≠ 0)
      obtain ⟨n', rfl⟩ := Nat.exists_eq_succ_of_ne_zero (by omega : n' ≠ 0)
      unfold operations
      rw [← peek?_congr h, hop]
      refine (skipSign_alike h).result_bind ?_
      rintro c₁ c₁' ⟨hmarks, hle⟩
      refine (hread c₁ c₁' hmarks (by omega)).result_bind ?_
      rintro ⟨r, c₂⟩ ⟨r', c₂'⟩ ⟨hvalue, hmarks, hless⟩
      refine (combine_alike op he hvalue).result_bind ?_
      intro e e' he
      dsimp only at hmarks hless
      refine (ih he hmarks ?_ ?_ ?_ ?_).imp (After.mono (Nat.le_succ k)) <;> omega

section
variable (hs : Starves nested) (hs' : Starves nested') (hn : Agree SameValue m nested nested')
include hs hs' hn

theorem term_alike : Agree SameValue (m + 1) (term nested) (term nested') := by
  intro c c' h hm
  refine (unary_alike hs hs' hn c c' h hm).result_bind ?_
  rintro ⟨e, c₁⟩ ⟨e', c₁'⟩ ⟨hvalue, hmarks, hless⟩
  exact operations_alike (unary_alike hs hs' hn) hvalue hmarks (by dsimp only at *; omega) hless c₁.length_marks_le
    (hmarks ▸ c₁'.length_marks_le)

theorem exprWith_alike : Agree SameValue (m + 1) (exprWith nested) (exprWith nested') := by
  intro c c' h hm
  refine (term_alike hs hs' hn c c' h hm).result_bind ?_
  rintro ⟨e, c₁⟩ ⟨e', c₁'⟩ ⟨hvalue, hmarks, hless⟩
  exact operations_alike (term_alike hs hs' hn) hvalue hmarks (by dsimp only at *; omega) hless c₁.length_marks_le
    (hmarks ▸ c₁'.length_marks_le)

end

theorem exprWithin_starves (n : Nat) : Starves (exprWithin (α := α) n) := by
  intro c h
  cases n with
  | zero => exact ⟨c.unexpectedEof, rfl, rfl⟩
  | succ n =>
    have hpeek : c.peek? = none := by
      rw [peek?_marks, h]
      rfl
    exact ⟨c.unexpectedEof, by simp [exprWithin, exprWith, term, unary, postfixed, operand, hpeek, next_starved h], rfl⟩

/-- Expressions, with bounds on the brackets that may differ. -/
theorem exprWithin_alike {n n' : Nat} (hn : m ≤ n) (hn' : m ≤ n') :
    Agree SameValue m (exprWithin (α := α) n) (exprWithin n') := by
  induction m generalizing n n' with
  | zero =>
    intro c c' h hm
    have hnil : c.marks = [] := List.length_eq_zero_iff.mp (by omega)
    obtain ⟨e, he, hcause⟩ := exprWithin_starves (α := α) n c hnil
    obtain ⟨e', he', hcause'⟩ := exprWithin_starves (α := α) n' c' (h ▸ hnil)
    rw [he, he']
    exact hcause.trans hcause'.symm
  | succ m ih =>
    obtain ⟨n, rfl⟩ := Nat.exists_eq_succ_of_ne_zero (by omega : n ≠ 0)
    obtain ⟨n', rfl⟩ := Nat.exists_eq_succ_of_ne_zero (by omega : n' ≠ 0)
    exact exprWith_alike (exprWithin_starves n) (exprWithin_starves n') (ih (by omega) (by omega))

theorem expr_alike {c c' : Cursor} (h : c.marks = c'.marks) :
    Alike (After SameValue c.marks.length) (expr (α := α) c).result (expr c').result :=
  exprWithin_alike c.length_marks_le (h ▸ c'.length_marks_le) c c' h (le_refl _)

/-- Definitions of one name with one value. -/
def SameDefinition (d d' : Definition α) : Prop := d.name = d'.name ∧ d.value = d'.value

theorem definition_alike {c c' : Cursor} (h : c.marks = c'.marks) :
    Alike (After SameDefinition c.marks.length) (definition (α := α) c).result (definition c').result := by
  unfold definition
  refine (expect_alike h .name).result_bind ?_
  rintro ⟨t, c₁⟩ ⟨t', c₁'⟩ ⟨ht, hmarks, hless⟩
  dsimp only at ht hmarks hless ⊢
  have hlexeme : t.lexeme = t'.lexeme := (Prod.mk.inj ht).2
  rw [← show c₁.atEnd = c₁'.atEnd from congrArg Option.isNone (peek?_congr hmarks)]
  split
  · exact congrArg Cause.unterminatedName hlexeme
  · refine (expect_alike hmarks .assign).result_bind ?_
    rintro ⟨_, c₂⟩ ⟨_, c₂'⟩ ⟨-, hmarks, hless₂⟩
    refine (expr_alike hmarks).result_bind ?_
    rintro ⟨e, c₃⟩ ⟨e', c₃'⟩ ⟨hvalue, hmarks, hless₃⟩
    dsimp only at hmarks hless₂ hless₃ ⊢
    rw [← peek?_congr hmarks]
    split
    -- the region of this problem is that of the raw token, which may be a blank on one side only
    · exact rfl
    · refine (expect_alike hmarks .semicolon).result_bind ?_
      rintro ⟨_, c₄⟩ ⟨_, c₄'⟩ ⟨-, hmarks, hless₄⟩
      exact ⟨⟨hlexeme, hvalue⟩, hmarks, by dsimp only at *; omega⟩

end Grammar

/-! ## Programs -/

namespace Program

open Grammar

variable {α : Type}

theorem insertByName_alike {d d' : Definition α} {ds ds' : List (Definition α)} (hd : SameDefinition d d')
    (h : List.Forall₂ SameDefinition ds ds') : List.Forall₂ SameDefinition (insertByName d ds) (insertByName d' ds') := by
  induction h with
  | nil => exact .cons hd .nil
  | cons he hrest ih =>
    unfold insertByName
    rw [← hd.1, ← he.1]
    split
    · exact .cons hd (.cons he hrest)
    · exact .cons he ih

theorem sortByName_alike {ds ds' : List (Definition α)} (h : List.Forall₂ SameDefinition ds ds') :
    List.Forall₂ SameDefinition (sortByName ds) (sortByName ds') := by
  induction h with
  | nil => exact .nil
  | cons hd _ ih => exact insertByName_alike hd ih

theorem blame_alike {β : Type} (d d' : Definition α) (x : Except ArithError β) : Alike Eq (blame d x) (blame d' x) := by
  cases x <;> exact rfl

theorem checkDefinition_alike {ds ds' : List (Definition α)} {d d' : Definition α}
    (hds : List.Forall₂ SameDefinition ds ds') (hd : SameDefinition d d') :
    Alike (fun _ _ => True) (checkDefinition ds d) (checkDefinition ds' d') := by
  unfold checkDefinition
  rw [← hd.1, ← hd.2]
  rcases find?_of_forall₂ hds (fun _ _ h => h.1.symm) d.name with ⟨h, h'⟩ | ⟨first, first', h, h', -⟩
  · rw [h, h']
    dsimp only
    split
    · exact rfl
    · trivial
  · rw [h, h']
    exact rfl

variable [Scalar α]

theorem readDefinitions_stop {n : Nat} {ds : List (Definition α)} {c : Cursor} (h : c.marks = []) :
    (readDefinitions n ds c).result = .ok ds := by
  have hend : c.atEnd = true := by
    rw [Cursor.atEnd, Cursor.peek?_marks, h]
    rfl
  cases n with
  | zero => rfl
  | succ n => simp [readDefinitions, hend]

/-- The definitions of a source, with bounds that may differ. -/
theorem readDefinitions_alike {k n n' : Nat} {ds ds' : List (Definition α)} {c c' : Cursor}
    (hds : List.Forall₂ SameDefinition ds ds') (h : c.marks = c'.marks) (hk : c.marks.length ≤ k)
    (hbound : c.marks.length ≤ n) (hbound' : c.marks.length ≤ n') :
    Alike (List.Forall₂ SameDefinition) (readDefinitions n ds c).result (readDefinitions n' ds' c').result := by
  induction k generalizing n n' ds ds' c c' with
  | zero =>
    have hnil : c.marks = [] := List.length_eq_zero_iff.mp (by omega)
    rw [readDefinitions_stop hnil, readDefinitions_stop (h ▸ hnil)]
    exact hds
  | succ k ih =>
    by_cases hnil : c.marks = []
    · rw [readDefinitions_stop hnil, readDefinitions_stop (h ▸ hnil)]
      exact hds
    · have hpos := List.length_pos_iff.mpr hnil
      obtain ⟨n, rfl⟩ := Nat.exists_eq_succ_of_ne_zero (by omega : n ≠ 0)
      obtain ⟨n', rfl⟩ := Nat.exists_eq_succ_of_ne_zero (by omega : n' ≠ 0)
      unfold readDefinitions
      rw [← show c.atEnd = c'.atEnd from congrArg Option.isNone (Cursor.peek?_congr h)]
      split
      · exact hds
      · refine (definition_alike h).result_bind ?_
        rintro ⟨d, c₁⟩ ⟨d', c₁'⟩ ⟨hd, hmarks, hless⟩
        dsimp only at hd hmarks hless ⊢
        refine Alike.result_bind (R := fun _ _ => True) trivial fun _ _ _ => ?_
        refine (checkDefinition_alike hds hd).result_bind fun _ _ _ => ?_
        exact ih (List.rel_append hds (.cons hd .nil)) hmarks (by omega) (by omega) (by omega)

theorem substituteInto_alike {s s' t t' : Definition α} (hs : SameDefinition s s') (ht : SameDefinition t t') :
    Alike SameDefinition (substituteInto s t).result (substituteInto s' t').result := by
  unfold substituteInto
  rw [← hs.1, ← hs.2, ← ht.1, ← ht.2]
  split
  · refine Alike.result_bind (R := fun _ _ => True) trivial fun _ _ _ => ?_
    exact (blame_alike t t' _).result_bind fun _ _ hvalue => ⟨rfl, hvalue⟩
  · exact ht

theorem eliminate_alike {ds ds' : List (Definition α)} (h : List.Forall₂ SameDefinition ds ds') (name : String) :
    Alike (List.Forall₂ SameDefinition) (eliminate ds name).result (eliminate ds' name).result := by
  unfold eliminate
  rcases find?_of_forall₂ h (fun _ _ h => h.1.symm) name with ⟨hs, hs'⟩ | ⟨s, s', hs, hs', hsource⟩
  · rw [hs, hs']
    exact h
  · rw [hs, hs', Logged.result_mapM, Logged.result_mapM]
    exact Alike.mapM h fun _ _ ht => substituteInto_alike hsource ht

theorem resolve_alike {ds ds' : List (Definition α)} (h : List.Forall₂ SameDefinition ds ds') :
    Alike (List.Forall₂ SameDefinition) (resolve ds).result (resolve ds').result := by
  unfold resolve
  rw [Logged.result_foldlM, Logged.result_foldlM, map_eq_map (f := (·.name)) (g := (·.name)) h fun _ _ h => h.1.symm]
  exact Alike.foldlM _ h fun _ _ h name => eliminate_alike h name

theorem finish_alike {d d' : Definition α} (h : SameDefinition d d') : Alike Eq (finish d).result (finish d').result := by
  unfold finish
  rw [← h.1, ← h.2]
  refine Alike.result_bind (R := fun _ _ => True) trivial fun _ _ _ => ?_
  refine (blame_alike d d' _).result_bind ?_
  rintro value _ rfl
  refine (blame_alike d d' _).result_bind fun _ _ _ => ?_
  exact Alike.result_bind (R := fun _ _ => True) trivial fun _ _ _ => rfl

theorem parse_alike {source source' : String} (h : Token.marks (Token.scan source) = Token.marks (Token.scan source')) :
    Alike Eq (parse (α := α) source) (parse source') := by
  unfold parse read
  have hmarks : (Parser.ofSource source).cursor.marks = (Parser.ofSource source').cursor.marks := h
  have hbound' := (Parser.ofSource source').cursor.length_marks_le
  rw [← hmarks] at hbound'
  refine (readDefinitions_alike .nil hmarks (le_refl _) (Cursor.length_marks_le _) hbound').result_bind
    fun _ _ hds => ?_
  refine (resolve_alike (sortByName_alike hds)).result_bind fun es es' hes => ?_
  have hfinish : Alike (List.Forall₂ Eq) (es.mapM finish).result (es'.mapM finish).result := by
    rw [Logged.result_mapM, Logged.result_mapM]
    exact Alike.mapM hes fun _ _ hd => finish_alike hd
  refine hfinish.result_bind fun rs rs' hrs => ?_
  exact congrArg Program.mk (List.forall₂_eq_eq_eq ▸ hrs)

/-- Sources that differ in their blanks only come to the same program, or fail for the same cause. -/
theorem parse_of_marks {source source' : String}
    (h : Token.marks (Token.scan source) = Token.marks (Token.scan source')) :
    (∃ p : Program α, parse source = .ok p ∧ parse source' = .ok p) ∨
      ∃ e e' : Problem, parse (α := α) source = .error e ∧ parse (α := α) source' = .error e' ∧ e.cause = e'.cause := by
  have halike := parse_alike (α := α) h
  cases hp : parse (α := α) source with
  | ok p => cases hp' : parse (α := α) source' with
    | ok p' =>
      rw [hp, hp'] at halike
      exact Or.inl ⟨p, rfl, congrArg Except.ok (show p = p' from halike).symm⟩
    | error e' =>
      rw [hp, hp'] at halike
      exact halike.elim
  | error e => cases hp' : parse (α := α) source' with
    | ok p' =>
      rw [hp, hp'] at halike
      exact halike.elim
    | error e' =>
      rw [hp, hp'] at halike
      exact Or.inr ⟨e, e', rfl, rfl, halike⟩

/-- Where the semicolon is missing, the token under the cursor is a blank in one source and a name in
    the other. -/
theorem parse_of_marks_unseparated :
    (∃ p : Program ℚ, parse "a = 1 b=2;" = .ok p ∧ parse "a=1b=2;" = .ok p) ∨
      ∃ e e' : Problem, parse (α := ℚ) "a = 1 b=2;" = .error e ∧ parse (α := ℚ) "a=1b=2;" = .error e' ∧
        e.cause = e'.cause :=
  parse_of_marks (by cbv)

end Program

end SymbolicAlgebra
