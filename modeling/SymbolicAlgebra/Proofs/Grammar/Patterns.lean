/-
  SymbolicAlgebra.Proofs.Grammar.Patterns — the texts of each kind of token, and the longest one at
  the front.

  The kinds of token are patterns (`Token.pattern`), said without the scanner: a set of texts for each.
  A token is the longest text at the front that any of them matches, and a character that none matches
  is a token of its own (`Token.Longest`). That is what the scanner takes first (`first_is_longest`), and
  it leaves no choice (`Longest.unique`).
-/

import SymbolicAlgebra.Proofs.Grammar.Scanning

namespace SymbolicAlgebra

namespace Token

open scoped Computability

/-! ## Patterns -/

/-- One character out of a range. -/
def range (low high : Char) : Language Char := {text | ∃ c, text = [c] ∧ low ≤ c ∧ c ≤ high}

/-- One certain character. -/
def char (c : Char) : Language Char := {[c]}

def blank : Language Char := char ' ' + char '\t' + char '\r' + char '\n'

def letter : Language Char := range 'a' 'z' + range 'A' 'Z'

def digit : Language Char := range '0' '9'

/-- Digits can be separated by underscores. -/
def digits : Language Char := (digit + char '_')∗

/-- The texts of each kind of token. -/
def pattern : TokenKind → Language Char
  | .whitespace => blank * blank∗
  | .add => char '+'
  | .sub => char '-'
  | .mul => char '*'
  | .div => char '/'
  | .quote => char '\''
  | .assign => char '='
  | .comma => char ','
  | .semicolon => char ';'
  | .openParen => char '('
  | .closeParen => char ')'
  | .openSquare => char '['
  | .closeSquare => char ']'
  | .name => letter * (letter + char '_')∗
  | .number => digit * digits * (1 + char '.' * digits) + char '.' * digit * digits
  | .symbol => {text | ∃ c, text = [c] ∧ c ≠ '\n'}

/-- At the front of `rest` stands this token: the longest text that a pattern matches, and the only kind
    that does. A character is unknown only where no pattern matches. -/
structure Longest (rest : List Char) (kind : TokenKind) (text : List Char) : Prop where
  front : text <+: rest
  matched : text ∈ pattern kind
  longest : ∀ k ≠ .symbol, ∀ other ∈ pattern k, other <+: rest → k = kind ∧ other.length ≤ text.length

/-! ## Patterns in terms of classes of characters -/

/-- One character of a class. -/
def one (p : Char → Bool) : Language Char := {text | ∃ c, text = [c] ∧ p c = true}

section
variable {p q : Char → Bool} {c : Char} {text : List Char}

theorem mem_one_mul {l : Language Char} : text ∈ one p * l ↔ ∃ c more, text = c :: more ∧ p c = true ∧ more ∈ l := by
  rw [Language.mem_mul]
  constructor
  · rintro ⟨_, ⟨c, rfl, hc⟩, more, hmore, rfl⟩
    exact ⟨c, more, rfl, hc, hmore⟩
  · rintro ⟨c, more, rfl, hc, hmore⟩
    exact ⟨[c], ⟨c, rfl, hc⟩, more, hmore, rfl⟩

theorem mem_one_kstar : text ∈ (one p)∗ ↔ ∀ c ∈ text, p c = true := by
  rw [Language.mem_kstar]
  constructor
  · rintro ⟨pieces, rfl, hpieces⟩ c hc
    obtain ⟨piece, hpiece, hc⟩ := List.mem_flatten.mp hc
    obtain ⟨d, rfl, hd⟩ := hpieces piece hpiece
    rwa [List.mem_singleton.mp hc]
  · intro h
    refine ⟨text.map fun c => [c], ?_, ?_⟩
    · rw [← List.flatMap_def, List.flatMap_singleton']
    · exact List.forall_mem_map.mpr fun c hc => ⟨c, rfl, h c hc⟩

theorem one_add_one : one p + one q = one fun c => p c || q c := by
  ext text
  rw [Language.mem_add]
  simp only [one, Bool.or_eq_true]
  constructor
  · rintro (⟨c, hc, h⟩ | ⟨c, hc, h⟩)
    · exact ⟨c, hc, Or.inl h⟩
    · exact ⟨c, hc, Or.inr h⟩
  · rintro ⟨c, hc, h | h⟩
    · exact Or.inl ⟨c, hc, h⟩
    · exact Or.inr ⟨c, hc, h⟩

theorem one_congr (h : ∀ c, p c = true ↔ q c = true) : one p = one q := by
  rw [show p = q from funext fun c => Bool.eq_iff_iff.mpr (h c)]

theorem char_eq_one (c : Char) : char c = one (· = c) := by
  ext text
  show text = [c] ↔ ∃ d, text = [d] ∧ decide (d = c) = true
  simp

theorem range_eq_one (low high : Char) : range low high = one fun c => decide (low ≤ c) && decide (c ≤ high) := by
  ext text
  show (∃ c, text = [c] ∧ low ≤ c ∧ c ≤ high) ↔ ∃ c, text = [c] ∧ (decide (low ≤ c) && decide (c ≤ high)) = true
  simp

theorem blank_eq_one : blank = one isBlank := by
  simp only [blank, char_eq_one, one_add_one]
  rfl

theorem letter_eq_one : letter = one isNameStart := by
  rw [letter, range_eq_one, range_eq_one, one_add_one]
  refine one_congr fun c => ?_
  simp [isNameStart, Char.isAlpha, Char.isUpper, Char.isLower, Char.le_def, or_comm]

theorem digit_eq_one : digit = one Char.isDigit := by
  rw [digit, range_eq_one]
  refine one_congr fun c => ?_
  simp [Char.isDigit, Char.le_def]

theorem namePart_eq_one : letter + char '_' = one isNamePart := by
  rw [letter_eq_one, char_eq_one, one_add_one]
  rfl

theorem mem_digits : text ∈ digits ↔ ∀ c ∈ text, isDigitPart c = true := by
  rw [digits, digit_eq_one, char_eq_one, one_add_one]
  exact mem_one_kstar

end

section
variable {text : List Char}

theorem mem_whitespace : text ∈ pattern .whitespace ↔
    ∃ c more, text = c :: more ∧ isBlank c = true ∧ ∀ d ∈ more, isBlank d = true := by
  show text ∈ blank * blank∗ ↔ _
  simp only [blank_eq_one, mem_one_mul, mem_one_kstar]

theorem mem_name : text ∈ pattern .name ↔
    ∃ c more, text = c :: more ∧ isNameStart c = true ∧ ∀ d ∈ more, isNamePart d = true := by
  show text ∈ letter * (letter + char '_')∗ ↔ _
  rw [namePart_eq_one, letter_eq_one]
  simp only [mem_one_mul, mem_one_kstar]

/-- Digits, digits with a point among or behind them, or a point before digits. -/
theorem mem_number : text ∈ pattern .number ↔
    (∃ c whole, text = c :: whole ∧ c.isDigit = true ∧ ∀ d ∈ whole, isDigitPart d = true) ∨
      (∃ c whole fraction, text = c :: (whole ++ '.' :: fraction) ∧ c.isDigit = true ∧
        (∀ d ∈ whole, isDigitPart d = true) ∧ ∀ d ∈ fraction, isDigitPart d = true) ∨
      ∃ c fraction, text = '.' :: c :: fraction ∧ c.isDigit = true ∧ ∀ d ∈ fraction, isDigitPart d = true := by
  show text ∈ digit * digits * (1 + char '.' * digits) + char '.' * digit * digits ↔ _
  rw [Language.mem_add, mul_assoc, mul_assoc, digit_eq_one, char_eq_one]
  simp only [mem_one_mul, Language.mem_mul (l := digits), Language.mem_add, Language.mem_one, mem_digits]
  constructor
  · intro h
    rcases h with ⟨c, _, rfl, hc, whole, hwhole, _, h, rfl⟩ | ⟨p, _, rfl, hp, c, fraction, rfl, hc, hfraction⟩
    · rcases h with rfl | ⟨p, fraction, rfl, hp, hfraction⟩
      · exact Or.inl ⟨c, whole, by rw [List.append_nil], hc, hwhole⟩
      · exact Or.inr (Or.inl ⟨c, whole, fraction, by rw [of_decide_eq_true hp], hc, hwhole, hfraction⟩)
    · exact Or.inr (Or.inr ⟨c, fraction, by rw [of_decide_eq_true hp], hc, hfraction⟩)
  · intro h
    rcases h with ⟨c, whole, rfl, hc, hwhole⟩ | ⟨c, whole, fraction, rfl, hc, hwhole, hfraction⟩ |
      ⟨c, fraction, rfl, hc, hfraction⟩
    · exact Or.inl ⟨c, _, rfl, hc, whole, hwhole, [], Or.inl rfl, by rw [List.append_nil]⟩
    · exact Or.inl ⟨c, _, rfl, hc, whole, hwhole, _, Or.inr ⟨'.', fraction, rfl, rfl, hfraction⟩, rfl⟩
    · exact Or.inr ⟨'.', _, rfl, rfl, c, fraction, rfl, hc, hfraction⟩

/-- All other kinds are signs. -/
theorem mem_sign {kind : TokenKind} (h : kind ∉ [.whitespace, .name, .number, .symbol]) :
    text ∈ pattern kind ↔ ∃ c, text = [c] ∧ sign? c = some kind := by
  have hchar : ∃ c, pattern kind = char c ∧ ∀ d, sign? d = some kind ↔ d = c := by
    have only (c : Char) (hc : sign? c = some kind) : ∀ d, sign? d = some kind ↔ d = c := by
      intro d
      constructor
      · intro hd
        unfold sign? at hc hd
        split at hc <;> cases hc <;> split at hd <;> cases hd <;> rfl
      · rintro rfl
        exact hc
    cases kind with
    | whitespace => simp at h
    | name => simp at h
    | number => simp at h
    | symbol => simp at h
    | add => exact ⟨'+', rfl, only '+' rfl⟩
    | sub => exact ⟨'-', rfl, only '-' rfl⟩
    | mul => exact ⟨'*', rfl, only '*' rfl⟩
    | div => exact ⟨'/', rfl, only '/' rfl⟩
    | quote => exact ⟨'\'', rfl, only '\'' rfl⟩
    | assign => exact ⟨'=', rfl, only '=' rfl⟩
    | comma => exact ⟨',', rfl, only ',' rfl⟩
    | semicolon => exact ⟨';', rfl, only ';' rfl⟩
    | openParen => exact ⟨'(', rfl, only '(' rfl⟩
    | closeParen => exact ⟨')', rfl, only ')' rfl⟩
    | openSquare => exact ⟨'[', rfl, only '[' rfl⟩
    | closeSquare => exact ⟨']', rfl, only ']' rfl⟩
  obtain ⟨c, hpattern, hc⟩ := hchar
  rw [hpattern]
  show text = [c] ↔ _
  simp [hc]

end

/-! ## The first token -/

section
variable {c : Char} {cs more : List Char}

/-- A run goes on over everything at the front that passes the test. -/
theorem length_le_run {p : Char → Bool} (h : more <+: cs) (hp : ∀ d ∈ more, p d = true) : more.length ≤ run p cs := by
  obtain ⟨rest, rfl⟩ := h
  rw [run, List.takeWhile_append_of_pos hp, List.length_append]
  exact Nat.le_add_right _ _

theorem mem_take_run {p : Char → Bool} : ∀ d ∈ cs.take (run p cs), p d = true := by
  rw [take_run]
  exact fun d hd => List.mem_takeWhile_imp hd

theorem run_le_numberRun : run isDigitPart cs ≤ numberRun cs := by
  unfold numberRun
  dsimp only
  split <;> omega

theorem length_le_numberRun {whole fraction : List Char} (h : whole ++ '.' :: fraction <+: cs)
    (hwhole : ∀ d ∈ whole, isDigitPart d = true) (hfraction : ∀ d ∈ fraction, isDigitPart d = true) :
    whole.length + 1 + fraction.length ≤ numberRun cs := by
  obtain ⟨rest, rfl⟩ := h
  have hrun : run isDigitPart (whole ++ '.' :: fraction ++ rest) = whole.length := by
    rw [run, List.append_assoc, List.takeWhile_append_of_pos hwhole, List.cons_append,
      List.takeWhile_cons_of_neg (by decide), List.append_nil]
  have hmore := length_le_run (List.prefix_append fraction rest) hfraction
  unfold numberRun
  dsimp only
  rw [hrun, List.append_assoc, List.drop_left, List.cons_append]
  show _ ≤ whole.length + 1 + run isDigitPart (fraction ++ rest)
  omega

theorem sign?_kind {kind : TokenKind} (h : sign? c = some kind) : kind ∉ [.whitespace, .name, .number, .symbol] := by
  unfold sign? at h
  split at h <;> cases h <;> decide

/-- The text of the first token is one of its kind. -/
theorem first_matched (c : Char) (cs : List Char) : c :: cs.take (first c cs).2 ∈ pattern (first c cs).1 := by
  unfold first
  by_cases hb : isBlank c = true
  · rw [if_pos hb]
    exact mem_whitespace.mpr ⟨c, _, rfl, hb, mem_take_run⟩
  rw [if_neg hb]
  by_cases hn : isNameStart c = true
  · rw [if_pos hn]
    exact mem_name.mpr ⟨c, _, rfl, hn, mem_take_run⟩
  rw [if_neg hn]
  by_cases hd : c.isDigit = true
  · rw [if_pos hd]
    rcases take_numberRun cs with hrun | ⟨fraction, hrun⟩
    · exact mem_number.mpr (Or.inl ⟨c, _, rfl, hd, by rw [hrun]; exact fun d hd => List.mem_takeWhile_imp hd⟩)
    · exact mem_number.mpr (Or.inr (Or.inl ⟨c, _, _, by rw [hrun], hd, fun d hd => List.mem_takeWhile_imp hd,
        fun d hd => List.mem_takeWhile_imp hd⟩))
  rw [if_neg hd]
  have hunknown : [c] ∈ pattern .symbol := by
    refine ⟨c, rfl, ?_⟩
    rintro rfl
    exact hb rfl
  split
  · rename_i kind hs
    rw [List.take_zero]
    exact (mem_sign (sign?_kind hs)).mpr ⟨c, rfl, hs⟩
  · rename_i d ds hs
    split
    · rename_i hp
      obtain ⟨rfl, hdigit⟩ : c = '.' ∧ d.isDigit = true := by simpa using hp
      rw [Nat.add_comm, List.take_succ_cons]
      exact mem_number.mpr (Or.inr (Or.inr ⟨d, _, rfl, hdigit, mem_take_run⟩))
    · exact hunknown
  · exact hunknown

/-- A number at the front is the first token, which may only be longer. -/
theorem first_of_number {text : List Char} (ht : text ∈ pattern .number) (h : text <+: c :: cs) :
    (first c cs).1 = .number ∧ text.length ≤ (first c cs).2 + 1 := by
  have hstart (d : Char) (hd : d.isDigit = true) : first d cs = (.number, numberRun cs) := by
    simp [first, isDigit_start hd, hd]
  rcases mem_number.mp ht with ⟨d, whole, rfl, hd, hwhole⟩ | ⟨d, whole, fraction, rfl, hd, hwhole, hfraction⟩ |
    ⟨d, fraction, rfl, hd, hfraction⟩
  · obtain ⟨rfl, hfront⟩ := List.cons_prefix_cons.mp h
    rw [hstart d hd]
    exact ⟨rfl, Nat.succ_le_succ ((length_le_run hfront hwhole).trans run_le_numberRun)⟩
  · obtain ⟨rfl, hfront⟩ := List.cons_prefix_cons.mp h
    have hlength := length_le_numberRun hfront hwhole hfraction
    rw [hstart d hd]
    refine ⟨rfl, ?_⟩
    simp only [List.length_cons, List.length_append]
    omega
  · obtain ⟨rfl, hfront⟩ := List.cons_prefix_cons.mp h
    obtain ⟨rest, rfl⟩ := hfront
    have hlength := length_le_run (List.prefix_append fraction rest) hfraction
    have hfirst : first '.' (d :: fraction ++ rest) = (.number, 1 + run isDigitPart (fraction ++ rest)) := by
      have hb : isBlank '.' = false := by decide
      have hn : isNameStart '.' = false := by decide
      have hdot : Char.isDigit '.' = false := by decide
      simp [first, hb, hn, hdot, hd, sign?]
    rw [hfirst]
    refine ⟨rfl, ?_⟩
    simp only [List.length_cons]
    omega

/-- Whatever pattern matches at the front is that of the first token, and the text is not longer. -/
theorem first_longest {kind : TokenKind} (hk : kind ≠ .symbol) {text : List Char} (ht : text ∈ pattern kind)
    (h : text <+: c :: cs) : kind = (first c cs).1 ∧ text.length ≤ (first c cs).2 + 1 := by
  by_cases hsign : kind ∉ [TokenKind.whitespace, .name, .number, .symbol]
  · obtain ⟨d, rfl, hd⟩ := (mem_sign hsign).mp ht
    obtain ⟨rfl, -⟩ := List.cons_prefix_cons.mp h
    rw [first_of_sign hd]
    exact ⟨rfl, le_refl _⟩
  have hclass : kind = .whitespace ∨ kind = .name ∨ kind = .number := by simpa [hk] using not_not.mp hsign
  rcases hclass with rfl | rfl | rfl
  · obtain ⟨d, more, rfl, hd, hmore⟩ := mem_whitespace.mp ht
    obtain ⟨rfl, hfront⟩ := List.cons_prefix_cons.mp h
    unfold first
    rw [if_pos hd]
    exact ⟨rfl, Nat.succ_le_succ (length_le_run hfront hmore)⟩
  · obtain ⟨d, more, rfl, hd, hmore⟩ := mem_name.mp ht
    obtain ⟨rfl, hfront⟩ := List.cons_prefix_cons.mp h
    unfold first
    rw [isNameStart_not_blank hd, if_neg Bool.false_ne_true, if_pos hd]
    exact ⟨rfl, Nat.succ_le_succ (length_le_run hfront hmore)⟩
  · obtain ⟨hfirst, hlength⟩ := first_of_number ht h
    exact ⟨hfirst.symm, hlength⟩

theorem length_first_le (c : Char) (cs : List Char) : (first c cs).2 ≤ cs.length := by
  by_cases hb : isBlank c = true
  · unfold first
    rw [if_pos hb]
    exact run_le_length _ _
  · exact first_le_length (by simpa using hb) cs

theorem first_is_longest (c : Char) (cs : List Char) :
    Longest (c :: cs) (first c cs).1 (c :: cs.take (first c cs).2) where
  front := List.cons_prefix_cons.mpr ⟨rfl, List.take_prefix _ _⟩
  matched := first_matched c cs
  longest := by
    intro kind hk text ht h
    obtain ⟨hkind, hlength⟩ := first_longest hk ht h
    refine ⟨hkind, ?_⟩
    rw [List.length_cons, List.length_take_of_le (length_first_le c cs)]
    exact hlength

end

/-! ## No choice -/

section
variable {rest text text' : List Char} {kind kind' : TokenKind}

/-- No pattern matches the empty text. -/
theorem ne_nil_of_matched (h : text ∈ pattern kind) : text ≠ [] := by
  rintro rfl
  by_cases hsign : kind ∉ [TokenKind.whitespace, .name, .number, .symbol]
  · obtain ⟨c, hc, -⟩ := (mem_sign hsign).mp h
    cases hc
  cases kind with
  | whitespace => simp [mem_whitespace] at h
  | name => simp [mem_name] at h
  | number => simp [mem_number] at h
  | symbol =>
    obtain ⟨c, hc, -⟩ := h
    cases hc
  | _ => simp at hsign

/-- The token at the front is the only one that can be taken. -/
theorem Longest.unique (h : Longest rest kind text) (h' : Longest rest kind' text') : kind = kind' ∧ text = text' := by
  have same : kind = kind' ∧ text.length = text'.length := by
    by_cases hk : kind = .symbol
    · by_cases hk' : kind' = .symbol
      · obtain ⟨c, hc, -⟩ : text ∈ pattern .symbol := hk ▸ h.matched
        obtain ⟨c', hc', -⟩ : text' ∈ pattern .symbol := hk' ▸ h'.matched
        exact ⟨hk.trans hk'.symm, by rw [hc, hc']; rfl⟩
      · exact absurd ((h.longest kind' hk' text' h'.matched h'.front).1.trans hk) hk'
    · obtain ⟨rfl, hle⟩ := h'.longest kind hk text h.matched h.front
      exact ⟨rfl, le_antisymm hle (h.longest kind hk text' h'.matched h'.front).2⟩
  have hfront := List.prefix_of_prefix_length_le h.front h'.front same.2.le
  exact ⟨same.1, hfront.eq_of_length same.2⟩

/-- A token stays the longest one where the text ends sooner, but not before the token does. -/
theorem Longest.shorten {more : List Char} (h : Longest rest kind text) (htext : text <+: more) (hmore : more <+: rest) :
    Longest more kind text where
  front := htext
  matched := h.matched
  longest := fun k hk other hother hfront => h.longest k hk other hother (hfront.trans hmore)

end

end Token

end SymbolicAlgebra
