/-
  SymbolicAlgebra.Proofs.Grammar.Words — what a cursor does, in terms of the words that are left.

  A word is what the grammar needs of a token. The mark of a token (`Token.mark`) is all but its place,
  so words are those of marks (`Token.word_eq_ofMark`).
-/

import SymbolicAlgebra.Proofs.Sequence
import SymbolicAlgebra.Proofs.Grammar.ParseTree

namespace SymbolicAlgebra

@[simp] theorem Token.kind_word (t : Token) : t.word.kind = t.kind := by
  unfold Token.word
  split
  · rename_i h
    exact h.symm
  · rename_i h
    exact h.symm
  · rfl

theorem Token.word_of_sign {t : Token} {k : TokenKind} (h : t.word = .sign k) : t.kind = k := by
  rw [← t.kind_word, h, Word.kind]

/-- What a token is, not where. -/
def Token.mark (t : Token) : TokenKind × String := (t.kind, t.lexeme)

/-- The tokens that are no blanks, without their places. -/
def Token.marks (ts : List Token) : List (TokenKind × String) := (ts.filter (·.kind != .whitespace)).map mark

/-- The word of a mark; the text of a sign is left out. -/
def Word.ofMark : TokenKind × String → Word
  | (.name, text) => .name text
  | (.number, text) => .number text
  | (kind, _) => .sign kind

theorem Token.word_eq_ofMark (t : Token) : t.word = .ofMark t.mark := by
  unfold word mark
  cases t.kind <;> rfl

namespace Cursor

variable {c : Cursor} {w : Word} {ws : List Word}

/-- Reading a token takes the first word away. -/
theorem next_of_words (h : c.words = w :: ws) : ∃ t c', c.next = .ok (t, c') ∧ t.word = w ∧ c'.words = ws ∧
    c'.rest.length < c.rest.length ∧ c.peek? = some w.kind := by
  obtain ⟨rest, stop⟩ := c
  suffices ∃ t rest', rest.dropWhile (·.kind == .whitespace) = t :: rest' ∧ t.word = w ∧
      (rest'.filter (·.kind != .whitespace)).map Token.word = ws ∧ rest'.length < rest.length by
    obtain ⟨t, rest', hd, ht, hw, hl⟩ := this
    exact ⟨t, ⟨rest', stop⟩, by simp [next, skipBlanks, hd], ht, hw, hl, by simp [peek?, skipBlanks, hd, ← ht]⟩
  induction rest with
  | nil => cases h
  | cons t rest ih =>
    by_cases hb : t.kind = .whitespace
    · have hrest : words ⟨rest, stop⟩ = w :: ws := by simpa [words, List.filter_cons, hb] using h
      obtain ⟨t', rest', hd, ht, hw, hl⟩ := ih hrest
      exact ⟨t', rest', by simp [hb, hd], ht, hw, Nat.lt_succ_of_lt hl⟩
    · have hrest : t.word :: words ⟨rest, stop⟩ = w :: ws := by simpa [words, List.filter_cons, hb] using h
      obtain ⟨ht, hw⟩ := List.cons.inj hrest
      exact ⟨t, rest, by simp [hb], ht, hw, Nat.lt_succ_self _⟩

theorem next_of_nil (h : c.words = []) : ∃ p, c.next = .error p ∧ c.peek? = none := by
  obtain ⟨rest, stop⟩ := c
  have hd : rest.dropWhile (·.kind == .whitespace) = [] := by
    have hb : ∀ t ∈ rest, t.kind = .whitespace := by simpa [words] using h
    exact List.dropWhile_eq_nil_iff.mpr fun t ht => by simp [hb t ht]
  exact ⟨unexpectedEof ⟨rest, stop⟩, by simp [next, skipBlanks, hd], by simp [peek?, skipBlanks, hd]⟩

theorem peek?_eq (c : Cursor) : c.peek? = c.words.head?.map Word.kind := by
  cases h : c.words with
  | nil =>
    obtain ⟨_, -, hp⟩ := next_of_nil h
    exact hp
  | cons w ws =>
    obtain ⟨_, _, -, -, -, -, hp⟩ := next_of_words h
    exact hp

/-- What a token that was read says about the words. -/
theorem next_eq_ok {t : Token} {c' : Cursor} (h : c.next = .ok (t, c')) :
    c.words = t.word :: c'.words ∧ c'.rest.length < c.rest.length := by
  cases hw : c.words with
  | nil =>
    obtain ⟨p, hp, -⟩ := next_of_nil hw
    rw [hp] at h
    cases h
  | cons w ws =>
    obtain ⟨t', c'', hn, rfl, rfl, hl, -⟩ := next_of_words hw
    rw [hn] at h
    cases h
    exact ⟨rfl, hl⟩

/-- The token that is read is of the kind that was seen before. -/
theorem kind_of_peek? {kind : TokenKind} {t : Token} {c' : Cursor} (hp : c.peek? = some kind) (h : c.next = .ok (t, c')) :
    t.kind = kind := by
  rw [peek?_eq, (next_eq_ok h).1, List.head?_cons, Option.map_some, Token.kind_word] at hp
  exact Option.some.inj hp

theorem atEnd_iff : c.atEnd = true ↔ c.words = [] := by
  rw [atEnd, peek?_eq]
  cases c.words <;> simp

theorem expect_of_words {k : TokenKind} (h : c.words = w :: ws) (hk : w.kind = k) : ∃ t c', c.expect k = .ok (t, c') ∧
    t.word = w ∧ c'.words = ws ∧ c'.rest.length < c.rest.length := by
  obtain ⟨t, c', hn, ht, hw, hl, -⟩ := next_of_words h
  refine ⟨t, c', ?_, ht, hw, hl⟩
  have hkind : t.kind = k := by rw [← t.kind_word, ht, hk]
  simp [expect, hn, bind, Except.bind, hkind, pure, Except.pure]

theorem next_of_expect {k : TokenKind} {t : Token} {c' : Cursor} (h : c.expect k = .ok (t, c')) :
    c.next = .ok (t, c') ∧ t.kind = k := by
  obtain ⟨⟨t', c''⟩, hn, h⟩ := bind_eq_ok.mp h
  dsimp only at h
  split at h
  · rename_i hk
    cases pure_eq_ok.mp h
    exact ⟨hn, hk⟩
  · simp at h

theorem expect_eq_ok {k : TokenKind} {t : Token} {c' : Cursor} (h : c.expect k = .ok (t, c')) :
    c.words = t.word :: c'.words ∧ c'.rest.length < c.rest.length ∧ t.kind = k := by
  obtain ⟨hn, hk⟩ := next_of_expect h
  exact ⟨(next_eq_ok hn).1, (next_eq_ok hn).2, hk⟩

theorem length_pos_of_words (h : c.words = w :: ws) : 0 < c.rest.length := by
  obtain ⟨_, _, -, -, -, hl, -⟩ := next_of_words h
  omega

end Cursor

end SymbolicAlgebra
