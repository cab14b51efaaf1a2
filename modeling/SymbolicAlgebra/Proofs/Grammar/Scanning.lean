/-
  SymbolicAlgebra.Proofs.Grammar.Scanning — what the scanner makes of a text.

  The scanner takes for a number only what comes down to digits, with at most one point and at least
  one digit, when its underscores are left out, so the number of a token can always be read
  (`number_readable`).

  A token may take in the beginning of what follows its text. The words of two texts side by side
  are those of the one and then those of the other if the first text ends, up to blanks, with a
  semicolon (`textWords_append`). So are their marks if the second text begins with a character that no
  name and no number goes on with (`textMarks_append_of_breaks`).
-/

import SymbolicAlgebra.Decimal.Numeral
import SymbolicAlgebra.Proofs.Grammar.Words

namespace SymbolicAlgebra

/-! ## Numbers -/

/-- Digits, with at most one point and at least one digit. -/
def Numeral.Plain (cs : List Char) : Prop :=
  ∃ whole fraction : List Char, (∀ c ∈ whole ++ fraction, c.isDigit = true) ∧ whole ++ fraction ≠ [] ∧
    (cs = whole ∧ fraction = [] ∨ cs = whole ++ '.' :: fraction)

/-- Digits before and after a point are the number of all digits, with a place for each of the latter. -/
theorem Numeral.decimal?_of_digits {cs whole fraction : List Char} (hdigits : ∀ c ∈ whole ++ fraction, c.isDigit = true)
    (hne : whole ++ fraction ≠ []) (hcs : cs = whole ∧ fraction = [] ∨ cs = whole ++ '.' :: fraction) :
    decimal? cs = some ⟨ofDigits (whole ++ fraction), -fraction.length⟩ := by
  obtain ⟨hwhole, hfraction⟩ := List.forall_mem_append.mp hdigits
  rcases hcs with ⟨rfl, rfl⟩ | rfl
  · have hrun : cs.takeWhile Char.isDigit = cs := List.takeWhile_eq_self_iff.mpr hwhole
    have hrest : cs.dropWhile Char.isDigit = [] := List.dropWhile_eq_nil_iff.mpr hwhole
    have hne : cs ≠ [] := by simpa using hne
    simp [Numeral.decimal?, hrun, hrest, hne, exponent?]
  · have hrun : (whole ++ '.' :: fraction).takeWhile Char.isDigit = whole := by
      rw [List.takeWhile_append_of_pos hwhole, List.takeWhile_cons_of_neg (by decide), List.append_nil]
    have hrest : (whole ++ '.' :: fraction).dropWhile Char.isDigit = '.' :: fraction := by
      rw [List.dropWhile_append_of_pos hwhole, List.dropWhile_cons_of_neg (by decide)]
    have hrun' : fraction.takeWhile Char.isDigit = fraction := List.takeWhile_eq_self_iff.mpr hfraction
    have hrest' : fraction.dropWhile Char.isDigit = [] := List.dropWhile_eq_nil_iff.mpr hfraction
    have hne : (whole.isEmpty && fraction.isEmpty) = false := by
      cases whole with
      | nil => simpa using hne
      | cons c whole => rfl
    simp [Numeral.decimal?, hrun, hrest, hrun', hrest', hne, exponent?]

theorem Numeral.Plain.decimal? {cs : List Char} (h : Plain cs) : (decimal? cs).isSome = true := by
  obtain ⟨whole, fraction, hdigits, hne, hcs⟩ := h
  rw [decimal?_of_digits hdigits hne hcs]
  rfl

theorem Numeral.Plain.ofChars? {cs : List Char} (h : Plain cs) : (ofChars? cs).isSome = true := by
  have hchars : ∀ c ∈ cs, c.isDigit = true ∨ c = '.' := by
    obtain ⟨whole, fraction, hdigits, -, ⟨rfl, -⟩ | rfl⟩ := h
    · exact fun c hc => Or.inl (hdigits c (List.mem_append_left _ hc))
    · intro c hc
      rcases List.mem_append.mp hc with hc | hc
      · exact Or.inl (hdigits c (List.mem_append_left _ hc))
      · rcases List.mem_cons.mp hc with hc | hc
        · exact Or.inr hc
        · exact Or.inl (hdigits c (List.mem_append_right _ hc))
  have hsign : sign cs = (false, cs) := by
    unfold sign
    split
    · exact absurd (hchars '-' List.mem_cons_self) (by decide)
    · exact absurd (hchars '+' List.mem_cons_self) (by decide)
    · rfl
  simp only [Numeral.ofChars?, hsign]
  split
  · rfl
  · split
    · rfl
    · simpa using h.decimal?

namespace Token

/-- Digits and underscores without the underscores. -/
theorem isDigit_of_mem_filter {cs : List Char} {c : Char} (h : c ∈ (cs.takeWhile isDigitPart).filter (· != '_')) :
    c.isDigit = true := by
  obtain ⟨hc, hne⟩ := List.mem_filter.mp h
  have hpart := List.mem_takeWhile_imp hc
  simpa [isDigitPart, bne_iff_ne.mp hne] using hpart

theorem take_run (p : Char → Bool) (cs : List Char) : cs.take (run p cs) = cs.takeWhile p :=
  (List.prefix_iff_eq_take.mp (List.takeWhile_prefix p)).symm

theorem take_numberRun (cs : List Char) : cs.take (numberRun cs) = cs.takeWhile isDigitPart ∨
    ∃ fraction : List Char, cs.take (numberRun cs) = cs.takeWhile isDigitPart ++ '.' :: fraction.takeWhile isDigitPart := by
  unfold numberRun
  dsimp only
  split
  · rename_i fraction h
    refine Or.inr ⟨fraction, ?_⟩
    rw [Nat.add_assoc, List.take_add, take_run, h, Nat.add_comm, List.take_succ_cons, take_run]
  · exact Or.inl (take_run _ _)

/-- A digit is neither blank nor a letter. -/
theorem isDigit_start {c : Char} (h : c.isDigit = true) : isBlank c = false ∧ isNameStart c = false := by
  have hval := h
  unfold Char.isDigit at hval
  simp only [ge_iff_le, Bool.and_eq_true, decide_eq_true_eq, UInt32.le_iff_toNat_le] at hval
  have hnine : '9'.val.toNat = 57 := by decide
  have hupper : 'A'.val.toNat = 65 := by decide
  have hlower : 'a'.val.toNat = 97 := by decide
  constructor
  · unfold isBlank
    by_contra hblank
    simp only [Bool.not_eq_false, Bool.or_eq_true, decide_eq_true_eq] at hblank
    rcases hblank with ((rfl | rfl) | rfl) | rfl <;> cases h
  · unfold isNameStart Char.isAlpha Char.isUpper Char.isLower
    simp only [ge_iff_le, Bool.or_eq_false_iff, Bool.and_eq_false_iff, decide_eq_false_iff_not, UInt32.le_iff_toNat_le]
    omega

theorem isNameStart_not_blank {c : Char} (h : isNameStart c = true) : isBlank c = false := by
  unfold isBlank
  by_contra hblank
  simp only [Bool.not_eq_false, Bool.or_eq_true, decide_eq_true_eq] at hblank
  rcases hblank with ((rfl | rfl) | rfl) | rfl <;> cases h

theorem sign?_eq_some {c : Char} {k : TokenKind} (h : sign? c = some k) : k ≠ .whitespace ∧ k ≠ .number := by
  unfold sign? at h
  split at h <;> cases h <;> decide

/-- A number starts with a digit, or with a point and a digit. -/
theorem first_eq_number {c : Char} {cs : List Char} (h : (first c cs).1 = .number) :
    (c.isDigit = true ∧ (first c cs).2 = numberRun cs) ∨
      ∃ d ds, c = '.' ∧ cs = d :: ds ∧ d.isDigit = true ∧ (first c cs).2 = run isDigitPart ds + 1 := by
  unfold first at h ⊢
  split at h
  · cases h
  · split at h
    · cases h
    · split at h
      · rename_i hb hn hd
        exact Or.inl ⟨hd, by simp [hb, hn, hd]⟩
      · split at h
        · rename_i hs
          cases h
          exact absurd rfl (sign?_eq_some hs).2
        · rename_i d ds hs
          split at h
          · rename_i hp
            obtain ⟨rfl, hd⟩ : c = '.' ∧ d.isDigit = true := by simpa using hp
            have hb : isBlank '.' = false := by decide
            have hn : isNameStart '.' = false := by decide
            exact Or.inr ⟨d, ds, rfl, rfl, hd, by simp [hb, hn, hd, Nat.add_comm]⟩
          · cases h
        · cases h

/-- What the scanner takes for a number is one, apart from underscores. -/
theorem plain_of_first {c : Char} {cs : List Char} (h : (first c cs).1 = .number) :
    Numeral.Plain ((c :: cs.take (first c cs).2).filter (· != '_')) := by
  have keep : ∀ c : Char, c.isDigit = true → (c != '_') = true := by
    intro c hc
    rw [bne_iff_ne]
    rintro rfl
    cases hc
  rcases first_eq_number h with ⟨hc, hmore⟩ | ⟨d, ds, rfl, rfl, hd, hmore⟩
  · rw [hmore, List.filter_cons_of_pos (p := (· != '_')) (keep c hc)]
    rcases take_numberRun cs with hrun | ⟨fraction, hrun⟩
    · refine ⟨_, [], ?_, by simp, Or.inl ⟨rfl, rfl⟩⟩
      rw [List.append_nil, hrun]
      exact List.forall_mem_cons.mpr ⟨hc, fun d => isDigit_of_mem_filter⟩
    · refine ⟨c :: (cs.takeWhile isDigitPart).filter (· != '_'), (fraction.takeWhile isDigitPart).filter (· != '_'),
        ?_, by simp, Or.inr (by rw [hrun]; simp)⟩
      exact List.forall_mem_append.mpr ⟨List.forall_mem_cons.mpr ⟨hc, fun d => isDigit_of_mem_filter⟩,
        fun d => isDigit_of_mem_filter⟩
  · rw [hmore, List.take_succ_cons, take_run]
    refine ⟨[], d :: (ds.takeWhile isDigitPart).filter (· != '_'), ?_, by simp, Or.inr (by simp [keep d hd])⟩
    exact List.forall_mem_cons.mpr ⟨hd, fun d => isDigit_of_mem_filter⟩

/-- Every token starts somewhere in the text. -/
theorem exists_of_mem_scanFrom {start : Nat} {cs : List Char} {t : Token} (h : t ∈ scanFrom start cs) :
    ∃ d ds, t.kind = (first d ds).1 ∧ t.lexeme = String.ofList (d :: ds.take (first d ds).2) := by
  fun_induction scanFrom start cs with
  | case1 => cases h
  | case2 start c cs kind more text stop ih =>
    rcases List.mem_cons.mp h with rfl | h
    · exact ⟨c, cs, rfl, rfl⟩
    · exact ih h

/-- What is left of a number in a source without the underscores. -/
theorem plain_of_number {source : String} {t : Token} (ht : t ∈ scan source) (hk : t.kind = .number) :
    Numeral.Plain (t.lexeme.toList.filter (· != '_')) := by
  obtain ⟨d, ds, hkind, hlexeme⟩ := exists_of_mem_scanFrom ht
  rw [hk] at hkind
  rw [hlexeme, String.toList_ofList]
  exact plain_of_first hkind.symm

/-- A number that the scanner finds can be read. -/
theorem number_readable {source : String} {t : Token} (ht : t ∈ scan source) (hk : t.kind = .number) :
    (Numeral.ofText? (String.ofList (t.lexeme.toList.filter (· != '_')))).isSome = true := by
  rw [Numeral.ofText?, String.toList_ofList]
  exact (plain_of_number ht hk).ofChars?

/-! ## The marks and the words of a text -/

/-- The mark of a token of this kind and text, if it is no blank. -/
def markOf (kind : TokenKind) (text : List Char) : List (TokenKind × String) :=
  marks [⟨kind, ⟨0, 0⟩, String.ofList text⟩]

/-- The marks of a text. -/
def textMarks (cs : List Char) : List (TokenKind × String) := marks (scanFrom 0 cs)

theorem marks_scanFrom_cons (start : Nat) (c : Char) (cs : List Char) : marks (scanFrom start (c :: cs)) =
    markOf (first c cs).1 (c :: cs.take (first c cs).2) ++
      marks (scanFrom (start + Source.byteLength (c :: cs.take (first c cs).2)) (cs.drop (first c cs).2)) := by
  rw [scanFrom]
  simp only [marks, markOf, List.filter_cons, List.filter_nil]
  split
  · rfl
  · rfl

/-- The marks of a text do not depend on where it starts. -/
theorem marks_scanFrom (start : Nat) (cs : List Char) : marks (scanFrom start cs) = textMarks cs := by
  suffices ∀ n start start' (cs : List Char), cs.length < n →
      marks (scanFrom start cs) = marks (scanFrom start' cs) from this _ _ _ _ (Nat.lt_succ_self _)
  intro n
  induction n with
  | zero => intro _ _ cs h; omega
  | succ n ih =>
    intro start start' cs h
    cases cs with
    | nil => simp [scanFrom]
    | cons c cs =>
      rw [marks_scanFrom_cons, marks_scanFrom_cons]
      congr 1
      exact ih _ _ _ (by simp only [List.length_drop, List.length_cons] at h ⊢; omega)

theorem textMarks_nil : textMarks [] = [] := by simp [textMarks, scanFrom, marks]

theorem textMarks_cons (c : Char) (cs : List Char) : textMarks (c :: cs) =
    markOf (first c cs).1 (c :: cs.take (first c cs).2) ++ textMarks (cs.drop (first c cs).2) := by
  rw [textMarks, marks_scanFrom_cons, marks_scanFrom]

/-- The words of tokens. -/
def words (ts : List Token) : List Word := (ts.filter (·.kind != .whitespace)).map word

/-- The word of a token of this kind and text, if it is no blank. -/
def wordOf (kind : TokenKind) (text : List Char) : List Word := words [⟨kind, ⟨0, 0⟩, String.ofList text⟩]

/-- The words of a text. -/
def textWords (cs : List Char) : List Word := words (scanFrom 0 cs)

theorem words_eq_map (ts : List Token) : words ts = (marks ts).map .ofMark := by
  rw [words, marks, List.map_map]
  exact List.map_congr_left fun t _ => t.word_eq_ofMark

theorem textWords_eq_map (cs : List Char) : textWords cs = (textMarks cs).map .ofMark := words_eq_map _

theorem textWords_nil : textWords [] = [] := by rw [textWords_eq_map, textMarks_nil, List.map_nil]

theorem textWords_cons (c : Char) (cs : List Char) : textWords (c :: cs) =
    wordOf (first c cs).1 (c :: cs.take (first c cs).2) ++ textWords (cs.drop (first c cs).2) := by
  rw [textWords_eq_map, textMarks_cons, List.map_append, wordOf, words_eq_map, textWords_eq_map]
  rfl

/-! ## Texts side by side -/

theorem drop_run (p : Char → Bool) (cs : List Char) : cs.drop (run p cs) = cs.dropWhile p := by
  have h := List.takeWhile_append_dropWhile (p := p) (l := cs)
  rw [← take_run] at h
  exact List.append_cancel_left ((List.take_append_drop _ _).trans h.symm)

theorem run_append {p : Char → Bool} {cs : List Char} (h : run p cs < cs.length) (ds : List Char) :
    run p (cs ++ ds) = run p cs := by
  unfold run at h ⊢
  rw [List.takeWhile_append, if_neg h.ne]

theorem numberRun_append {cs : List Char} (h : numberRun cs < cs.length) (ds : List Char) :
    numberRun (cs ++ ds) = numberRun cs := by
  unfold numberRun at h ⊢
  dsimp only at h ⊢
  have hwhole : run isDigitPart cs < cs.length := by
    split at h
    · omega
    · exact h
  rw [run_append hwhole, List.drop_append_of_le_length hwhole.le]
  cases hrest : cs.drop (run isDigitPart cs) with
  | nil => exact absurd (List.drop_eq_nil_iff.mp hrest) (by omega)
  | cons x xs =>
    have hlen := congrArg List.length hrest
    rw [List.length_drop, List.length_cons] at hlen
    rw [hrest] at h
    by_cases hx : x = '.'
    · subst hx
      simp only [List.cons_append] at h ⊢
      rw [run_append (by omega)]
    · simp [hx]

/-- A token that ends before its text does is not changed by what follows the text. -/
theorem first_append {c : Char} {cs : List Char} (h : (first c cs).2 < cs.length) (ds : List Char) :
    first c (cs ++ ds) = first c cs := by
  unfold first at h ⊢
  by_cases hb : isBlank c = true
  · simp only [hb, if_true] at h ⊢
    rw [run_append h]
  · by_cases hn : isNameStart c = true
    · simp only [hb, hn, Bool.false_eq_true, if_false, if_true] at h ⊢
      rw [run_append h]
    · by_cases hd : c.isDigit = true
      · simp only [hb, hn, hd, Bool.false_eq_true, if_false, if_true] at h ⊢
        rw [numberRun_append h]
      · simp only [hb, hn, hd, Bool.false_eq_true, if_false] at h ⊢
        cases hs : sign? c with
        | some kind => simp
        | none =>
          cases cs with
          | nil => simp [hs] at h
          | cons d cs =>
            simp only [hs, List.cons_append, List.length_cons] at h ⊢
            split at h
            · rename_i hp
              rw [if_pos hp, if_pos hp, run_append (by dsimp only at h; omega)]
            · rename_i hp
              rw [if_neg hp, if_neg hp]

theorem first_eq_semicolon {c : Char} {cs : List Char} (h : (first c cs).1 = .semicolon) (ds : List Char) :
    first c ds = (.semicolon, 0) := by
  unfold first at h ⊢
  split at h
  · cases h
  · split at h
    · cases h
    · split at h
      · cases h
      · rename_i hb hn hd
        simp only [hb, hn, hd, Bool.false_eq_true, if_false]
        split at h
        · rename_i hs
          cases h
          simp [hs]
        · split at h <;> cases h
        · cases h

theorem first_eq_whitespace {c : Char} {cs : List Char} (h : (first c cs).1 = .whitespace) :
    isBlank c = true ∧ (first c cs).2 = run isBlank cs := by
  unfold first at h ⊢
  split at h
  · rename_i hb
    simp [hb]
  · split at h
    · cases h
    · split at h
      · cases h
      · split at h
        · rename_i hs
          cases h
          exact absurd rfl (sign?_eq_some hs).1
        · split at h <;> cases h
        · cases h

/-- Blanks in front do not count. -/
theorem textMarks_dropWhile (cs : List Char) : textMarks (cs.dropWhile isBlank) = textMarks cs := by
  cases cs with
  | nil => rfl
  | cons c cs =>
    by_cases hc : isBlank c = true
    · have hfirst : first c cs = (.whitespace, run isBlank cs) := by simp [first, hc]
      rw [List.dropWhile_cons_of_pos hc, textMarks_cons, hfirst, drop_run]
      rfl
    · rw [List.dropWhile_cons_of_neg hc]

theorem textWords_dropWhile (cs : List Char) : textWords (cs.dropWhile isBlank) = textWords cs := by
  rw [textWords_eq_map, textMarks_dropWhile, textWords_eq_map]

/-- The last word, if there is one, is a semicolon. -/
def Complete (ws : List Word) : Prop := ∀ w, ws.getLast? = some w → w = .sign .semicolon

theorem Complete.tail {ws ws' : List Word} (h : Complete (ws ++ ws')) : Complete ws' := by
  intro w hw
  exact h w (by rw [List.getLast?_append, hw, Option.some_or])

/-- The words of a text that ends with a semicolon are not changed by what follows it. -/
theorem textWords_append {cs : List Char} (h : Complete (textWords cs)) (ds : List Char) :
    textWords (cs ++ ds) = textWords cs ++ textWords ds := by
  -- A token may take more than one character, so the induction is on the length.
  suffices ∀ n (cs : List Char), cs.length < n → Complete (textWords cs) →
      textWords (cs ++ ds) = textWords cs ++ textWords ds from this _ cs (Nat.lt_succ_self _) h
  intro n
  induction n with
  | zero => intro cs hn; omega
  | succ n ih =>
    intro cs hn h
    cases cs with
    | nil => simp [textWords_nil]
    | cons c cs =>
      rw [List.length_cons] at hn
      rw [textWords_cons] at h ⊢
      by_cases hmore : (first c cs).2 < cs.length
      · -- The first token ends inside the text, and the rest is shorter.
        have hfirst := first_append hmore ds
        rw [List.cons_append, textWords_cons, hfirst, List.take_append_of_le_length hmore.le,
          List.drop_append_of_le_length hmore.le, ih _ (by rw [List.length_drop]; omega) h.tail, List.append_assoc]
      · have hnil : cs.drop (first c cs).2 = [] := List.drop_eq_nil_iff.mpr (by omega)
        rw [hnil, textWords_nil, List.append_nil] at h ⊢
        by_cases hk : (first c cs).1 = .whitespace
        · -- The whole text is blank, and the blanks may go on.
          obtain ⟨hc, hrun⟩ := first_eq_whitespace hk
          have hblank : ∀ x ∈ c :: cs, isBlank x = true := by
            refine List.forall_mem_cons.mpr ⟨hc, List.dropWhile_eq_nil_iff.mp ?_⟩
            rw [← drop_run, ← hrun, hnil]
          rw [hk, ← textWords_dropWhile, List.dropWhile_append_of_pos hblank, textWords_dropWhile]
          rfl
        · -- The only token of the text is the semicolon.
          have hword : wordOf (first c cs).1 (c :: cs.take (first c cs).2) =
              [word ⟨(first c cs).1, ⟨0, 0⟩, String.ofList (c :: cs.take (first c cs).2)⟩] := by
            simp [wordOf, words, hk]
          have hkind : (first c cs).1 = .semicolon := word_of_sign (h _ (by rw [hword]; rfl))
          have hfirst := first_eq_semicolon hkind
          rw [hfirst] at hmore hword ⊢
          obtain rfl : cs = [] := List.length_eq_zero_iff.mp (by simpa using hmore)
          rw [List.singleton_append, textWords_cons, hfirst]
          rfl

/-! ## Texts that end where a token must end -/

theorem textMarks_blank {c : Char} (h : isBlank c = true) (cs : List Char) : textMarks (c :: cs) = textMarks cs := by
  rw [← textMarks_dropWhile (c :: cs), List.dropWhile_cons_of_pos h, textMarks_dropWhile]

/-- A character that no name and no number goes on with. -/
def isBreak (c : Char) : Bool := !isNamePart c && !isDigitPart c && c != '.'

theorem isBreak_iff {c : Char} : isBreak c = true ↔ isNamePart c = false ∧ isDigitPart c = false ∧ c ≠ '.' := by
  simp [isBreak, and_assoc]

/-- A sign is such a character. -/
theorem isBreak_of_sign {c : Char} {kind : TokenKind} (h : sign? c = some kind) : isBreak c = true := by
  unfold sign? at h
  split at h <;> first | decide | cases h

/-- The text is empty or begins with such a character. -/
def Breaks (cs : List Char) : Prop := ∀ c, cs.head? = some c → isBreak c = true

theorem run_append_of_breaks {p : Char → Bool} (hp : ∀ c, isBreak c = true → p c = false) {ds : List Char} (h : Breaks ds)
    (cs : List Char) : run p (cs ++ ds) = run p cs := by
  have hnil : ds.takeWhile p = [] := by
    cases ds with
    | nil => rfl
    | cons d ds => rw [List.takeWhile_cons_of_neg (by simp [hp d (h d rfl)])]
  unfold run
  rw [List.takeWhile_append]
  split
  · rename_i hall
    rw [List.length_append, hnil, List.length_nil, hall, Nat.add_zero]
  · rfl

theorem run_le_length (p : Char → Bool) (cs : List Char) : run p cs ≤ cs.length :=
  (List.takeWhile_prefix p).length_le

theorem numberRun_append_of_breaks {ds : List Char} (h : Breaks ds) (cs : List Char) :
    numberRun (cs ++ ds) = numberRun cs := by
  have hrun := run_append_of_breaks (p := isDigitPart) (fun c hc => (isBreak_iff.mp hc).2.1) h
  unfold numberRun
  dsimp only
  rw [hrun, List.drop_append_of_le_length (run_le_length _ _)]
  cases hrest : cs.drop (run isDigitPart cs) with
  | nil =>
    cases ds with
    | nil => rfl
    | cons d ds => simp [(isBreak_iff.mp (h d rfl)).2.2]
  | cons x xs =>
    by_cases hx : x = '.'
    · subst hx
      simp only [List.cons_append]
      rw [hrun]
    · simp [hx]

/-- A token does not go on behind such a place, unless it is a blank. -/
theorem first_append_of_breaks {ds : List Char} (h : Breaks ds) {c : Char} (hc : isBlank c = false) (cs : List Char) :
    first c (cs ++ ds) = first c cs := by
  have hname : run isNamePart (cs ++ ds) = run isNamePart cs :=
    run_append_of_breaks (fun c hc => (isBreak_iff.mp hc).1) h cs
  unfold first
  rw [numberRun_append_of_breaks h, hname]
  simp only [hc, Bool.false_eq_true, if_false]
  by_cases hn : isNameStart c = true
  · simp [hn]
  · by_cases hd : c.isDigit = true
    · simp [hn, hd]
    · simp only [hn, hd, Bool.false_eq_true, if_false]
      cases hs : sign? c with
      | some kind => simp
      | none =>
        cases cs with
        | nil =>
          cases ds with
          | nil => rfl
          | cons d ds =>
            have hdigit : d.isDigit = false := by
              have := (isBreak_iff.mp (h d rfl)).2.1
              simp only [isDigitPart, Bool.or_eq_false_iff] at this
              exact this.1
            simp [hdigit]
        | cons d cs =>
          simp only [List.cons_append]
          rw [run_append_of_breaks (fun c hc => (isBreak_iff.mp hc).2.1) h]

theorem first_le_length {c : Char} (hc : isBlank c = false) (cs : List Char) : (first c cs).2 ≤ cs.length := by
  unfold first
  rw [if_neg (by simp [hc])]
  split
  · exact run_le_length _ _
  · split
    · unfold numberRun
      dsimp only
      split
      · rename_i fraction hrest
        have hlength := congrArg List.length hrest
        rw [List.length_drop, List.length_cons] at hlength
        have := run_le_length isDigitPart fraction
        omega
      · exact run_le_length _ _
    · split
      · exact Nat.zero_le _
      · split
        · rename_i d ds _ _
          have := run_le_length isDigitPart ds
          simp only [List.length_cons]
          omega
        · exact Nat.zero_le _
      · exact Nat.zero_le _

/-- The marks of a text are not changed by what follows it, if that begins with a break. -/
theorem textMarks_append_of_breaks {ds : List Char} (h : Breaks ds) (cs : List Char) :
    textMarks (cs ++ ds) = textMarks cs ++ textMarks ds := by
  suffices ∀ n (cs : List Char), cs.length < n → textMarks (cs ++ ds) = textMarks cs ++ textMarks ds from
    this _ cs (Nat.lt_succ_self _)
  intro n
  induction n with
  | zero => intro cs hn; omega
  | succ n ih =>
    intro cs hn
    cases cs with
    | nil => simp [textMarks_nil]
    | cons c cs =>
      rw [List.length_cons] at hn
      rw [List.cons_append]
      by_cases hc : isBlank c = true
      · rw [textMarks_blank hc, textMarks_blank hc, ih cs (by omega)]
      · have hc : isBlank c = false := by simpa using hc
        have hle := first_le_length hc cs
        rw [textMarks_cons, first_append_of_breaks h hc, textMarks_cons, List.take_append_of_le_length hle,
          List.drop_append_of_le_length hle, ih _ (by rw [List.length_drop]; omega), List.append_assoc]

/-- A character that is a token on its own, whatever follows it. -/
theorem textMarks_single {c : Char} {kind : TokenKind} (h : ∀ ds, first c ds = (kind, 0)) (hk : kind ≠ .whitespace)
    (cs : List Char) : textMarks (c :: cs) = (kind, String.singleton c) :: textMarks cs := by
  have hmark : markOf kind [c] = [(kind, String.singleton c)] := by simp [markOf, marks, mark, hk]
  rw [textMarks_cons, h, List.take_zero, List.drop_zero, hmark, List.singleton_append]

/-- Signs are neither blanks nor letters nor digits. -/
theorem first_of_sign {c : Char} {kind : TokenKind} (h : sign? c = some kind) (ds : List Char) : first c ds = (kind, 0) := by
  unfold sign? at h
  split at h <;> cases h <;> rfl

theorem textWords_name {c : Char} {cs : List Char} (hc : isNameStart c = true) (hcs : ∀ d ∈ cs, isNamePart d = true) :
    textWords (c :: cs) = [.name (String.ofList (c :: cs))] := by
  have hblank : isBlank c = false := isNameStart_not_blank hc
  have hrun : run isNamePart cs = cs.length := by rw [run, List.takeWhile_eq_self_iff.mpr hcs]
  have hfirst : first c cs = (.name, cs.length) := by simp [first, hblank, hc, hrun]
  rw [textWords_cons, hfirst, List.take_length, List.drop_length, textWords_nil]
  rfl

end Token

end SymbolicAlgebra
