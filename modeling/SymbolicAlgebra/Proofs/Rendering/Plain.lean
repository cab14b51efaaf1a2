/-
  SymbolicAlgebra.Proofs.Rendering.Plain — the words of what is written in the definition language, and
  the parse trees of those words.

  Each piece of the style is taken for its marks, and so for its words, blanks or not. A row of factors
  has a parse tree in which the operators group to the left, and so has a row of terms
  (`Spelled.precedence`); divisors are names, so the parser is never refused a division
  (`ParseTree.Tame`). What is written for a tree has therefore a parse tree that comes to the value of
  the tree (`plain_reading`).
-/

import SymbolicAlgebra.Proofs.Solutions
import SymbolicAlgebra.Proofs.Rendering.Trees
import SymbolicAlgebra.Proofs.Totality
import SymbolicAlgebra.Style.Plain

namespace SymbolicAlgebra

/-! ## The marks of the pieces -/

namespace Source

variable {s u : String} {c : Char} {cs : List Char} {kind : TokenKind}

/-- What the tokens of a source are, blanks and places apart. -/
def marks (source : String) : List (TokenKind × String) := Token.marks (Token.scan source)

theorem words_eq_map (source : String) : words source = (marks source).map .ofMark := Token.textWords_eq_map source.toList

theorem marks_empty : marks "" = [] := Token.textMarks_nil

theorem marks_append (h : Token.Breaks u.toList) (t : String) : marks (t ++ u) = marks t ++ marks u := by
  show Token.textMarks (t ++ u).toList = _
  rw [String.toList_append, Token.textMarks_append_of_breaks h]
  rfl

theorem marks_single (hs : s.toList = [c]) (hc : ∀ ds, Token.first c ds = (kind, 0)) (hk : kind ≠ .whitespace) (t : String) :
    marks (s ++ t) = (kind, s) :: marks t := by
  have htext : s = String.singleton c := by rw [← String.ofList_toList (s := s), hs]; rfl
  show Token.textMarks (s ++ t).toList = _
  rw [String.toList_append, hs, List.singleton_append, Token.textMarks_single hc hk, htext]
  rfl

theorem marks_sign (hs : s.toList = [c]) (hc : Token.sign? c = some kind) (t : String) :
    marks (s ++ t) = (kind, s) :: marks t :=
  marks_single hs (Token.first_of_sign hc) (Token.sign?_eq_some hc).1 t

/-- A text that is a sign. -/
theorem marks_of_sign (hs : s.toList = [c]) (hc : Token.sign? c = some kind) : marks s = [(kind, s)] := by
  have h := marks_sign hs hc ""
  rwa [String.append_empty, marks_empty] at h

theorem marks_blank (hs : s.toList.all Token.isBlank = true) (t : String) : marks (s ++ t) = marks t := by
  show Token.textMarks (s ++ t).toList = Token.textMarks t.toList
  rw [String.toList_append, ← Token.textMarks_dropWhile, List.dropWhile_append_of_pos (List.all_eq_true.mp hs),
    Token.textMarks_dropWhile]

theorem breaks_append (hs : s.toList = c :: cs) (hc : Token.isBreak c = true) (t : String) : Token.Breaks (s ++ t).toList := by
  intro d hd
  rw [String.toList_append, hs] at hd
  cases hd
  exact hc

end Source

namespace Style

open Source

variable {c : Char} {kind : TokenKind} {sign : String}

/-- A sign with or without blanks around it. -/
theorem marks_operator (hc : Token.sign? c = some kind) (hsign : sign.toList = [c]) (pretty : Bool) (l r : String) :
    marks (operator pretty sign l r) = marks l ++ (kind, sign) :: marks r := by
  unfold operator
  split
  · simp only [spaced, String.append_assoc]
    rw [marks_append (breaks_append rfl rfl _), marks_blank rfl, marks_sign hsign hc, marks_blank rfl]
  · rw [String.append_assoc, marks_append (breaks_append hsign (Token.isBreak_of_sign hc) _), marks_sign hsign hc]

theorem marks_parenthesis (pretty : Bool) (t : String) :
    marks (plainParenthesis pretty t) = (.openParen, "(") :: (marks t ++ [(.closeParen, ")")]) := by
  have hlast : marks ")" = [(.closeParen, ")")] := marks_of_sign rfl rfl
  unfold plainParenthesis
  split
  · have hopen : "( " = "(" ++ " " := rfl
    have hclose : " )" = " " ++ ")" := rfl
    rw [hopen, hclose, String.append_assoc, String.append_assoc, marks_sign rfl rfl, marks_blank rfl,
      marks_append (breaks_append rfl rfl _), marks_blank rfl, hlast]
  · rw [String.append_assoc, marks_sign rfl rfl, marks_append (by rintro _ ⟨⟩; rfl), hlast]

theorem marks_negate (t : String) : marks ("-" ++ t) = (.sub, "-") :: marks t := marks_sign rfl rfl t

/-- A power; its sign is not one of the language. -/
theorem marks_power (base exponent : String) :
    marks (base ++ "^" ++ exponent) = marks base ++ (.symbol, "^") :: marks exponent := by
  have hfirst (ds : List Char) : Token.first '^' ds = (.symbol, 0) := by cases ds <;> rfl
  rw [String.append_assoc, marks_append (breaks_append rfl rfl _), marks_single rfl hfirst (by decide)]

/-- The end of a cell, when another one follows in its row. -/
theorem marks_comma (pretty : Bool) (t u : String) :
    marks (t ++ (if pretty then ", " else ",") ++ u) = marks t ++ (.comma, ",") :: marks u := by
  have hpretty : ", " = "," ++ " " := rfl
  rw [String.append_assoc]
  split
  · rw [hpretty, String.append_assoc, marks_append (breaks_append rfl rfl _), marks_sign rfl rfl, marks_blank rfl]
  · rw [marks_append (breaks_append rfl rfl _), marks_sign rfl rfl]

/-- The end of a row, when another one follows. -/
theorem marks_semicolon (t u : String) : marks (t ++ ";" ++ u) = marks t ++ (.semicolon, ";") :: marks u := by
  rw [String.append_assoc, marks_append (breaks_append rfl rfl _), marks_sign rfl rfl]

/-- A row that begins a line in the spaced form. -/
theorem marks_line (pretty : Bool) (t : String) : marks ((if pretty then "\n    " else "") ++ t) = marks t := by
  split
  · exact marks_blank rfl t
  · rw [String.empty_append]

theorem marks_plainRows_last (pretty : Bool) {n i : Nat} (hlast : ¬ i + 1 < n) (row : List String) :
    marks (plainRows pretty n i [row]) = marks (joinWith (if pretty then ", " else ",") row) := by
  rw [plainRows, if_neg hlast, plainRows, String.append_empty, String.append_empty, marks_line]

theorem marks_plainRows_cons (pretty : Bool) {n i : Nat} (hmore : i + 1 < n) (row : List String) (rest : List (List String)) :
    marks (plainRows pretty n i (row :: rest)) = marks (joinWith (if pretty then ", " else ",") row) ++
      (.semicolon, ";") :: marks (plainRows pretty n (i + 1) rest) := by
  rw [plainRows, if_pos hmore, String.append_assoc, String.append_assoc, marks_line, ← String.append_assoc, marks_semicolon]

theorem marks_plainMatrix (pretty : Bool) (shape : Shape) (cells : List String) : marks (plainMatrix pretty shape cells) =
    (.openSquare, "[") :: (marks (plainRows pretty shape.rows 0 (chunks shape.cols cells)) ++ [(.closeSquare, "]")]) := by
  have hlast : marks "]" = [(.closeSquare, "]")] := marks_of_sign rfl rfl
  have hpretty : "\n]" = "\n" ++ "]" := rfl
  rw [plainMatrix, String.append_assoc, marks_sign rfl rfl]
  split
  · rw [hpretty, marks_append (breaks_append rfl rfl _), marks_blank rfl, hlast]
  · rw [marks_append (by rintro _ ⟨⟩; rfl), hlast]

/-! ## The words of the pieces -/

theorem words_empty : words "" = [] := by rw [words_eq_map, marks_empty, List.map_nil]

theorem words_operator (hc : Token.sign? c = some kind) (hsign : sign.toList = [c]) (pretty : Bool) (l r : String) :
    words (operator pretty sign l r) = words l ++ .ofMark (kind, sign) :: words r := by
  simp [words_eq_map, marks_operator hc hsign]

theorem words_parenthesis (pretty : Bool) (t : String) :
    words (plainParenthesis pretty t) = .sign .openParen :: (words t ++ [.sign .closeParen]) := by
  simp [words_eq_map, marks_parenthesis, Word.ofMark]

theorem words_negate (t : String) : words ("-" ++ t) = .sign .sub :: words t := by
  simp [words_eq_map, marks_negate, Word.ofMark]

theorem words_name {n : String} (h : IsIdentifier n) : words n = [.name n] := by
  obtain ⟨c, cs, hn, hc, hcs⟩ := h
  show Token.textWords n.toList = _
  rw [hn, Token.textWords_name hc hcs, ← hn, String.ofList_toList]

end Style

/-! ## Trees of words -/

namespace ParseTree

open SymbolicAlgebra.Expr

/-- No matrices, numbers that can be read, and no divisors but names: such a tree always has a value. -/
inductive Tame : ParseTree → Prop
  | number {s : String} {v : ℚ} : Scalar.ofText? (String.ofList (s.toList.filter (· != '_'))) = some v → Tame (.number s)
  | name (n : String) : Tame (.name n)
  | paren {t : ParseTree} : Tame t → Tame (.paren t)
  | neg {t : ParseTree} : Tame t → Tame (.neg t)
  | binary {op : Operator} {l r : ParseTree} : op ≠ .div → Tame l → Tame r → Tame (.binary op l r)
  | quotient {l : ParseTree} {n : String} : Tame l → Tame (.binary .div l (.name n))

theorem Tame.expr? {t : ParseTree} (h : t.Tame) : ∃ e : Expr ℚ, t.expr? = some e ∧ Gridless e := by
  have hcombine {op : Operator} {l r : ParseTree} {a b : Expr ℚ} (ha : l.expr? = some a) (hb : r.expr? = some b)
      (h : Succeeds Gridless (op.apply a b)) : ∃ e : Expr ℚ, (ParseTree.binary op l r).expr? = some e ∧ Gridless e := by
    obtain ⟨e, he, hgridless⟩ := h.eq_ok
    exact ⟨e, by simp [ParseTree.expr?, ha, hb, he, Except.toOption], hgridless⟩
  induction h with
  | @number s v hv => exact ⟨.const v, by rw [ParseTree.expr?, hv]; rfl, .const v⟩
  | name n => exact ⟨.ofName n, by rw [ParseTree.expr?], .var trivial⟩
  | paren _ ih =>
    rw [ParseTree.expr?]
    exact ih
  | neg _ ih =>
    obtain ⟨e, he, hgridless⟩ := ih
    exact ⟨e.neg, by simp [ParseTree.expr?, he], Everywhere.neg gridless_kept hgridless⟩
  | @binary op l r hop _ _ ihl ihr =>
    obtain ⟨a, ha, hga⟩ := ihl
    obtain ⟨b, hb, hgb⟩ := ihr
    refine hcombine ha hb ?_
    cases op with
    | add => exact add_gridless hga hgb
    | sub => exact sub_gridless hga hgb
    | mul => exact mul_gridless hga hgb
    | div => exact absurd rfl hop
  | @quotient l n _ ih =>
    obtain ⟨a, ha, hga⟩ := ih
    have hname : (ParseTree.name n).expr? = some (Expr.ofName n : Expr ℚ) := by rw [ParseTree.expr?]
    have hdiv : Succeeds Gridless (a.div (.ofName n)) :=
      div_monomial_gridless (n := .ofName n) (by simp [Monomial.ofName]) hga
    exact hcombine ha hname hdiv

/-- The words have a tree at this place of the grammar that comes to what they mean. -/
def Spelled (p : Phrase) (ws : List Word) (v : Meaning) : Prop :=
  ∃ t : ParseTree, t.Fits p ∧ t.words = ws ∧ t.Tame ∧ ∀ ρ : Assignment, t.number? ρ.1 = some (v ρ)

/-- The words are a name. -/
def Named (ws : List Word) (v : Meaning) : Prop := ∃ n, ws = [.name n] ∧ v = fun ρ => ρ.1 n

namespace Spelled

variable {ws us : List Word} {v w : Meaning}

theorem number {t : String} {x : ℚ} (h : Scalar.ofText? (String.ofList (t.toList.filter (· != '_'))) = some x) :
    Spelled .operand [.number t] fun _ => x :=
  ⟨.number t, .number t, by rw [words], .number h, fun ρ => by rw [number?, h]⟩

theorem name (n : String) : Spelled .operand [.name n] fun ρ => ρ.1 n :=
  ⟨.name n, .name n, by rw [words], .name n, fun ρ => by rw [number?]⟩

theorem paren (h : Spelled .expr ws v) : Spelled .operand (.sign .openParen :: (ws ++ [.sign .closeParen])) v := by
  obtain ⟨t, hfits, rfl, htame, hvalue⟩ := h
  exact ⟨.paren t, .paren hfits, by rw [words], .paren htame, fun ρ => by rw [number?, hvalue]⟩

theorem neg (h : Spelled .operand ws v) : Spelled .unary (.sign .sub :: ws) (-v) := by
  obtain ⟨t, hfits, rfl, htame, hvalue⟩ := h
  exact ⟨.neg t, .neg (.operand hfits), by rw [words], .neg htame, fun ρ => by rw [number?, hvalue]; rfl⟩

/-- An operator between two texts whose trees it can join. -/
theorem binary (op : Operator) {p q : Phrase} {x : Meaning} (h : Spelled p ws v) (h' : Spelled q us w)
    (hfits : ∀ l r : ParseTree, l.Fits p → r.Fits q → (ParseTree.binary op l r).Fits p) (hop : op ≠ .div)
    (hx : ∀ ρ, op.compute? (v ρ) (w ρ) = some (x ρ)) : Spelled p (ws ++ op.sign :: us) x := by
  obtain ⟨l, hl, rfl, htame, hvalue⟩ := h
  obtain ⟨r, hr, rfl, htame', hvalue'⟩ := h'
  refine ⟨.binary op l r, hfits l r hl hr, by rw [words], .binary hop htame htame', fun ρ => ?_⟩
  rw [number?, hvalue, hvalue']
  exact hx ρ

theorem divided (h : Spelled .term ws v) (n : String) :
    Spelled .term (ws ++ .sign .div :: [.name n]) (v / fun ρ => ρ.1 n) := by
  obtain ⟨l, hl, rfl, htame, hvalue⟩ := h
  refine ⟨.binary .div l (.name n), .multiplicative (Or.inr rfl) hl (.primed (.operand (.name n))),
    by rw [words, words]; rfl, .quotient htame, ?_⟩
  intro ρ
  rw [number?, hvalue, number?]
  simp [Operator.compute?, ρ.2 n]

/-- A text at one place of the grammar can stand wherever its trees fit. -/
theorem mono {p q : Phrase} (h : Spelled p ws v) (hfits : ∀ t : ParseTree, t.Fits p → t.Fits q) : Spelled q ws v := by
  obtain ⟨t, ht, hrest⟩ := h
  exact ⟨t, hfits t ht, hrest⟩

theorem precedence : Precedence (Spelled .operand) Named (Spelled .term) (Spelled .expr) where
  operand h := h.mono fun _ ht => .unary (.primed (.operand ht))
  negated h := h.neg.mono fun _ ht => .unary ht
  times h h' :=
    binary .mul h h' (fun _ _ hl hr => .multiplicative (Or.inl rfl) hl (.primed (.operand hr))) (by decide) fun _ => rfl
  divided h h' := by
    obtain ⟨n, rfl, rfl⟩ := h'
    exact h.divided n
  term h := h.mono fun _ ht => .term ht
  plus h h' := binary .add h h' (fun _ _ hl hr => .additive (Or.inl rfl) hl hr) (by decide) fun _ => rfl
  minus h h' := binary .sub h h' (fun _ _ hl hr => .additive (Or.inr rfl) hl hr) (by decide) fun _ => rfl

end Spelled

end ParseTree

/-! ## The style -/

namespace Style

open ParseTree (Spelled Named)

/-- A number that is not negative is one word, which is read back. -/
theorem spelled_number {v : ℚ} (h : Rational.IsDecimal v) (hv : 0 ≤ v) :
    Spelled .operand (Source.words (Style.number v)) fun _ => v := by
  obtain ⟨d, k, hspells, -⟩ := Rational.spells_text h hv
  have hwords : Source.words (Style.number v) = [.number (Rational.text v)] := by
    rw [number_eq_text]
    show Token.textWords (Rational.text v).toList = _
    rw [Token.textWords_number hspells, String.ofList_toList]
  -- there are no underscores to be left out
  have hfilter : (Rational.text v).toList.filter (· != '_') = (Rational.text v).toList := by
    obtain ⟨c, rest, hcs, hc, hrest⟩ := hspells.eq_cons
    rw [hcs]
    refine List.filter_eq_self.mpr (List.forall_mem_cons.mpr ⟨?_, fun x hx => ?_⟩)
    · rw [bne_iff_ne]
      rintro rfl
      cases hc
    · rw [bne_iff_ne]
      rintro rfl
      rcases hrest '_' hx with h | h <;> cases h
  rw [hwords]
  refine Spelled.number ?_
  rw [hfilter, String.ofList_toList]
  exact Rational.ofText?_text h hv

theorem plain_constant_of_nonneg (pretty : Bool) {v : ℚ} (hv : 0 ≤ v) : (Style.plain pretty).constant v = number v :=
  if_neg (by simpa using hv)

theorem plain_constant_of_neg (pretty : Bool) {v : ℚ} (hv : v < 0) :
    (Style.plain pretty).constant v = plainParenthesis pretty (number v) := if_pos (by simpa using hv)

/-- The exponents that the definition language can express. -/
def Simple (k : ℤ) : Prop := k = 1 ∨ k = -1 ∨ k = 0

/-- Only names are written as powers. -/
theorem renderPower_one (pretty : Bool) (n : String) {k : ℤ} (hk : k = 1) :
    Monomial.renderPower (Style.plain pretty) n (k : ℚ) = n := if_pos (by simp [hk])

/-- Terms and sums are rows of factors and of terms to the parser, and all divisors are names. -/
theorem plain_reading (pretty : Bool) : (Style.plain pretty).Reading Simple
    (fun t => Factors (Spelled .operand) Named (Source.words t)) (fun t => Named (Source.words t))
    (fun t => Terms (Spelled .operand) Named (Source.words t)) where
  number h hv := by
    rw [plain_constant_of_nonneg pretty hv]
    exact .single (spelled_number h hv)
  sign hv := by
    rw [plain_constant_of_neg pretty hv, plain_constant_of_nonneg pretty (by linarith), number_of_neg hv]
    rfl
  power {n k} hn hk hpos := by
    have hone : k = 1 := by unfold Simple at hk; omega
    rw [renderPower_one pretty n hone, words_name hn, hone]
    simpa using Factors.single (Spelled.name n)
  divisor {n k} hn hk hpos := by
    have hone : k = 1 := by unfold Simple at hk; omega
    rw [renderPower_one pretty n hone]
    exact ⟨n, words_name hn, by simp [hone]⟩
  times {t u _ _} ht hu := by
    show Factors _ _ (Source.words (operator pretty "*" t u)) _
    rw [words_operator (c := '*') rfl rfl]
    exact ht.mul hu
  divide {t u _ _} ht hu := by
    show Factors _ _ (Source.words (operator pretty "/" t u)) _
    rw [words_operator (c := '/') rfl rfl]
    exact ht.divided hu
  parenthesis {t _} h := by
    show Factors _ _ (Source.words (plainParenthesis pretty t)) _
    rw [words_parenthesis]
    exact .single (Spelled.precedence.of_terms h).paren
  term h := .single h
  negate {t _} h := by
    show Terms _ _ (Source.words ("-" ++ t)) _
    rw [words_negate]
    exact .negated h
  plus {t u _ _} ht hu := by
    show Terms _ _ (Source.words (operator pretty "+" t u)) _
    rw [words_operator (c := '+') rfl rfl]
    exact ht.plus hu
  minus {t u _ _} ht hu := by
    show Terms _ _ (Source.words (operator pretty "-" t u)) _
    rw [words_operator (c := '-') rfl rfl]
    exact ht.minus hu

end Style

end SymbolicAlgebra
