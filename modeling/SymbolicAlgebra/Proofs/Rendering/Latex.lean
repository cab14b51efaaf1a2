/-
  SymbolicAlgebra.Proofs.Rendering.Latex — what the LaTeX text of an expression says of its value.

  A negative number is written with its minus and without parentheses. In front of a product, of a sum
  or of one of its terms that is its sign; behind a factor, it begins the next term. So a text is read
  as the value of the expression, and in no other way, if no factor behind the first of a product is
  written with a minus in front (`render_latex_reads`), and then expressions with the same text have
  the same value (`render_latex_determines`). Otherwise a product can be written like a difference
  (`render_latex_conflates`).
-/

import SymbolicAlgebra.Proofs.Rendering.Formulas
import SymbolicAlgebra.Proofs.Rendering.Trees
import SymbolicAlgebra.Style.Latex

namespace SymbolicAlgebra

open Latex (Reads symbols isMark)

/-! ## The symbols of the pieces -/

namespace Style

variable {c : Char} {sign n : String} {v : ℚ}

theorem symbols_spaced (hsign : sign.toList = [c]) (hc : isMark c = true) (l r : String) :
    symbols (spaced sign l r) = symbols l ++ (Latex.Word.other c).symbol :: symbols r := by
  have htext : (spaced sign l r).toList = l.toList ++ ' ' :: c :: ' ' :: r.toList := by
    simp [spaced, hsign]
  rw [symbols, htext, Latex.words_append (by rfl), Latex.words_blank (by rfl), Latex.words_mark hc,
    Latex.words_blank (by rfl), List.map_append, List.map_cons]
  rfl

theorem symbols_times (l r : String) : symbols (latex.times (α := ℚ) l r) = symbols l ++ symbols r := by
  have htext : (latex.times (α := ℚ) l r).toList = l.toList ++ ' ' :: r.toList := by simp [latex]
  rw [symbols, htext, Latex.words_append (by rfl), Latex.words_blank (by rfl), List.map_append]
  rfl

theorem symbols_negate (t : String) : symbols ("-" ++ t) = .minus :: symbols t := by
  have htext : ("-" ++ t).toList = '-' :: t.toList := by simp
  rw [symbols, htext, Latex.words_mark (by rfl)]
  rfl

theorem words_command (h : ∀ d ∈ n.toList, d.isAlpha = true) :
    Latex.words ('\\' :: n.toList) = [.command n] := by
  rw [Latex.words_run (by rfl) h, ← String.ofList_toList (s := n)]
  simp [Latex.begins, Token.isNameStart]

theorem symbols_parenthesis (t : String) :
    symbols (latex.parenthesis (α := ℚ) t) = .left :: .openParen :: (symbols t ++ [.right, .closeParen]) := by
  have htext : (latex.parenthesis (α := ℚ) t).toList =
      ('\\' :: "left".toList) ++ '(' :: (t.toList ++ '\\' :: ("right".toList ++ [')'])) := by simp [latex]
  have hright : Latex.words ('\\' :: ("right".toList ++ [')'])) = [.command "right", .other ')'] := by
    rw [← List.cons_append, Latex.words_append (by rfl), words_command (List.all_eq_true.mp rfl),
      Latex.words_mark (by rfl), Latex.words_nil]
    rfl
  rw [symbols, htext, Latex.words_append (by rfl), words_command (List.all_eq_true.mp rfl), Latex.words_mark (by rfl),
    Latex.words_append (by rfl), hright]
  simp only [List.map_append, List.map_cons, List.map_nil, List.singleton_append]
  rfl

theorem symbols_divide (l r : String) : symbols (latex.divide (α := ℚ) l r) =
    .frac :: .openBrace :: (symbols l ++ .closeBrace :: .openBrace :: (symbols r ++ [.closeBrace])) := by
  have htext : (latex.divide (α := ℚ) l r).toList =
      ('\\' :: "frac".toList) ++ '\x7b' :: (l.toList ++ '\x7d' :: '\x7b' :: (r.toList ++ ['\x7d'])) := by simp [latex]
  rw [symbols, htext, Latex.words_append (by rfl), words_command (List.all_eq_true.mp rfl), Latex.words_mark (by rfl),
    Latex.words_append (by rfl), Latex.words_mark (by rfl), Latex.words_mark (by rfl), Latex.words_append (by rfl),
    Latex.words_mark (by rfl), Latex.words_nil]
  simp only [List.map_append, List.map_cons, List.map_nil, List.singleton_append]
  rfl

theorem symbols_power (l r : String) :
    symbols (latex.power (α := ℚ) l r) = symbols l ++ .caret :: .openBrace :: (symbols r ++ [.closeBrace]) := by
  have htext : (latex.power (α := ℚ) l r).toList = l.toList ++ '^' :: '\x7b' :: (r.toList ++ ['\x7d']) := by simp [latex]
  rw [symbols, htext, Latex.words_append (by rfl), Latex.words_mark (by rfl), Latex.words_mark (by rfl),
    Latex.words_append (by rfl), Latex.words_mark (by rfl), Latex.words_nil]
  simp only [List.map_append, List.map_cons, List.map_nil]
  rfl

/-- The name of a Greek letter is the name of no construct. -/
theorem greekLetters_plain :
    ∀ n ∈ greekLetters, (∀ d ∈ n.toList, d.isAlpha = true) ∧ (Latex.Word.command n).symbol = .name n := by
  have hplain : greekLetters.all (fun n =>
      n.toList.all Char.isAlpha && n != "left" && n != "right" && n != "frac") = true := by decide
  intro n hn
  have := List.all_eq_true.mp hplain n hn
  simp only [Bool.and_eq_true, bne_iff_ne, ne_eq, List.all_eq_true] at this
  obtain ⟨⟨⟨halpha, hleft⟩, hright⟩, hfrac⟩ := this
  exact ⟨halpha, by simp [Latex.Word.symbol, hleft, hright, hfrac]⟩

theorem symbols_name (h : IsIdentifier n) : symbols (latexName n) = [.name n] := by
  unfold latexName
  split
  · rename_i hgreek
    obtain ⟨halpha, hsymbol⟩ := greekLetters_plain n (List.contains_iff_mem.mp hgreek)
    have htext : ("\\" ++ n).toList = '\\' :: n.toList := by simp
    rw [symbols, htext, words_command halpha, List.map_singleton, hsymbol]
  · obtain ⟨c, cs, hn, hc, hcs⟩ := h
    have hblank : Token.isBlank c = false := Token.isNameStart_not_blank hc
    have hbegins : Latex.begins c = (Token.isNamePart, fun cs => .name (String.ofList (c :: cs))) := by
      simp [Latex.begins, hc]
    have hwords : Latex.words n.toList = [.name (String.ofList n.toList)] := by
      rw [hn, Latex.words_run hblank (by rwa [hbegins]), hbegins]
    rw [symbols, hwords, String.ofList_toList]
    rfl

/-- A number that is not negative is one word. -/
theorem symbols_number (h : Rational.IsDecimal v) (hv : 0 ≤ v) : symbols (number v) = [.number v] := by
  obtain ⟨d, k, hspells, -⟩ := Rational.spells_text h hv
  obtain ⟨c, rest, htext, hc, hrest⟩ := hspells.eq_cons
  obtain ⟨hblank, hname⟩ := Token.isDigit_start hc
  have hbegins : Latex.begins c = (Latex.isNumberPart, fun cs => .number (String.ofList (c :: cs))) := by
    simp [Latex.begins, hname, hc]
  have hpart : ∀ x ∈ rest, Latex.isNumberPart x = true := by
    intro x hx
    rcases hrest x hx with hx | rfl
    · simp [Latex.isNumberPart, hx]
    · rfl
  have hread : Scalar.ofText? (Rational.text v) = some v := Rational.ofText?_text h hv
  have hwords : Latex.words (Rational.text v).toList = [.number (String.ofList (Rational.text v).toList)] := by
    rw [htext, Latex.words_run hblank (by rwa [hbegins]), hbegins]
  rw [number_eq_text, symbols, hwords, String.ofList_toList]
  simp [Latex.Word.symbol, hread]

end Style

/-! ## Readings of the pieces -/

/-- The text is read as this number: as a row of factors, with a sign if it begins with a minus. -/
structure Latex.Written (ρ : String → ℚ) (t : String) (v : ℚ) : Prop where
  signed : Reads ρ .signed (symbols t) v
  row : t.toList.head? ≠ some '-' → Reads ρ .row (symbols t) v

namespace Latex

open Style (number latex latexName)

variable {ρ : String → ℚ} {t u n : String} {v w : ℚ} {k : ℤ}

theorem Written.of_row (h : Reads ρ .row (symbols t) v) : Written ρ t v := ⟨.row h, fun _ => h⟩

/-- What stands behind other factors must not begin with a minus. -/
theorem Written.times (ht : Written ρ t v) (hu : Reads ρ .row (symbols u) w) :
    Written ρ (latex.times (α := ℚ) t u) (v * w) := by
  constructor
  · rw [Style.symbols_times]
    exact ht.signed.signed_beside hu
  · intro hhead
    rw [Style.symbols_times]
    refine (ht.row fun hminus => hhead ?_).row_beside hu
    have htext : (latex.times (α := ℚ) t u).toList = t.toList ++ ' ' :: u.toList := by simp [latex]
    rw [htext, List.head?_append, hminus]
    rfl

theorem reads_number (h : Rational.IsDecimal v) (hv : 0 ≤ v) : Reads ρ .row (symbols (number v)) v := by
  rw [Style.symbols_number h hv]
  exact .factor (.number v)

theorem written_number (h : Rational.IsDecimal v) : Written ρ (number v) v := by
  by_cases hneg : v < 0
  · have hsigned := Reads.neg (.row (reads_number (ρ := ρ) h.neg (by linarith)))
    rw [neg_neg, ← Style.symbols_negate, ← Style.number_of_neg hneg] at hsigned
    refine ⟨hsigned, fun hhead => absurd ?_ hhead⟩
    rw [Style.number_of_neg hneg]
    simp
  · exact .of_row (reads_number h (not_lt.mp hneg))

theorem reads_power (hn : IsIdentifier n) (hk : 0 < k) :
    Reads ρ .row (symbols (Monomial.renderPower latex n (k : ℚ))) (ρ n ^ k) := by
  unfold Monomial.renderPower
  split
  · rename_i hone
    obtain rfl : k = 1 := by exact_mod_cast Rational.nearOne_iff.mp hone
    rw [zpow_one, show latex.name n = latexName n from rfl, Style.symbols_name hn]
    exact .factor (.name n)
  · have hnonneg : (0 : ℚ) ≤ k := by exact_mod_cast hk.le
    have hexponent : symbols (latex.constant (k : ℚ)) = [.number k] :=
      Style.symbols_number (Rational.IsDecimal.intCast k) hnonneg
    rw [Style.symbols_power, show latex.name n = latexName n from rfl, Style.symbols_name hn, hexponent]
    exact .factor (.power n k)

theorem reads_parenthesis (h : Reads ρ .sum (symbols t) v) :
    Reads ρ .row (symbols (latex.parenthesis (α := ℚ) t)) v := by
  rw [Style.symbols_parenthesis]
  exact .factor (.paren h)

theorem reads_negate (h : Reads ρ .row (symbols t) v) :
    Reads ρ .sum (symbols (latex.negate (α := ℚ) t)) (-v) := by
  rw [show latex.negate (α := ℚ) t = "-" ++ t from rfl, Style.symbols_negate]
  exact .signed (.neg (.row h))

/-- The part of a fraction can begin with a minus. -/
theorem reads_divide (ht : Written ρ t v) (hu : Reads ρ .row (symbols u) w) (hw : w ≠ 0) :
    Reads ρ .row (symbols (latex.divide (α := ℚ) t u)) (v / w) := by
  rw [Style.symbols_divide]
  exact .factor (.frac (.signed ht.signed) (.signed (.row hu)) hw)

/-! ## Monomials -/

theorem written_monomial {m : Monomial ℚ} {k : ℤ} (hn : IsIdentifier m.name) (hq : Rational.IsDecimal m.quantity)
    (hm : m.exponent = k) (ρ : Assignment) : Written ρ.1 (m.render latex) (Expr.meaning (.var m) ρ) := by
  have hvalue : Expr.meaning (.var m) ρ = m.quantity * ρ.1 m.name ^ k := by rw [Monomial.meaning_eq hm]
  rw [hvalue]
  rcases lt_trichotomy k 0 with hneg | rfl | hpos
  · obtain ⟨l, rfl⟩ : ∃ l, k = -l := ⟨-k, (neg_neg k).symm⟩
    have hl : 0 < l := by omega
    have hbottom := reads_power (ρ := ρ.1) hn hl
    have hne : ρ.1 m.name ^ l ≠ 0 := zpow_ne_zero l (ρ.2 _)
    rw [Monomial.render_of_neg latex (by simpa using hm) hl, zpow_neg, ← div_eq_mul_inv]
    split
    · rename_i hminus
      have hone : Written ρ.1 (latex.constant (1 : ℚ)) 1 := written_number (v := 1) ⟨1, 0, by norm_num⟩
      have hquotient := reads_parenthesis (reads_negate (reads_divide hone hbottom hne))
      rw [← neg_div, ← hminus] at hquotient
      exact .of_row hquotient
    · exact .of_row (reads_divide (written_number hq) hbottom hne)
  · rw [Monomial.render_of_zero latex (by simpa using hm), zpow_zero, mul_one]
    exact written_number hq
  · have hpower := reads_power (ρ := ρ.1) hn hpos
    rw [Monomial.render_of_pos latex hm hpos]
    split
    · rename_i hone
      rw [hone, one_mul]
      exact .of_row hpower
    · split
      · rename_i hminus
        rw [hminus, neg_one_mul]
        exact .of_row (reads_parenthesis (reads_negate hpower))
      · exact (written_number hq).times hpower

end Latex

/-! ## The walk over a tree -/

namespace Expr

open Style (latex)

/-- Written inside a product or a sum, the expression has a minus in front. -/
def BeginsWithMinus (e : Expr ℚ) : Prop := (e.renderNested latex true).toList.head? = some '-'

/-- What is written of a term behind the first: without the minus, if it shows one. -/
def unsigned (e : Expr ℚ) : Expr ℚ := if e.isNegative then e.neg else e

/-- Nowhere in what is written, a factor behind the first of a product has a minus in front. -/
inductive Legible : Expr ℚ → Prop
  | const (v : ℚ) : Legible (.const v)
  | var (m : Monomial ℚ) : Legible (.var m)
  | sum {t : Expr ℚ} {ts : List (Expr ℚ)} : Legible t → (∀ u ∈ ts, Legible u.unsigned) → Legible (.sum (t :: ts))
  | product {f : Expr ℚ} {fs : List (Expr ℚ)} : Legible f → (∀ g ∈ fs, Legible g) → (∀ g ∈ fs, ¬ g.BeginsWithMinus) →
      Legible (.product (f :: fs))

end Expr

theorem Writable.unsigned {e : Expr ℚ} (h : Writable (fun _ => True) e) : Writable (fun _ => True) e.unsigned := by
  unfold Expr.unsigned
  split
  · exact h.neg
  · exact h

namespace Expr

open Style (latex)

variable {e f t : Expr ℚ} {fs ts : List (Expr ℚ)} {v : ℚ} {ρ : Assignment}

theorem written_joinFactors (hf : Latex.Written ρ.1 (f.renderNested latex true) (f.meaning ρ))
    (hfs : ∀ g ∈ fs, Latex.Reads ρ.1 .row (symbols (g.renderNested latex true)) (g.meaning ρ)) :
    Latex.Written ρ.1 (joinFactors (latex (α := ℚ)) (renderEach latex true (f :: fs)))
      ((Expr.product (f :: fs)).meaning ρ) :=
  joinFactors_induction (P := fun t v => Latex.Written ρ.1 t (v ρ)) hf fun g hg _ _ ht => ht.times (hfs g hg)

/-- The first term and each of the further ones can have a minus in front. -/
theorem reads_renderTerms (ht : Latex.Reads ρ.1 .signed (symbols (t.renderNested latex true)) (t.meaning ρ))
    (hts : ∀ u ∈ ts, Latex.Reads ρ.1 .signed (symbols (u.unsigned.renderNested latex true)) (u.unsigned.meaning ρ)) :
    Latex.Reads ρ.1 .sum (symbols (renderTerms latex (t :: ts))) ((Expr.sum (t :: ts)).meaning ρ) := by
  rw [renderTerms, meaning_sum_cons]
  refine renderMore_induction (P := fun t v => Latex.Reads ρ.1 .sum (symbols t) (v ρ)) (.signed ht)
    (fun u hu hneg w v hw => ?_) fun u hu hneg w v hw => ?_
  · have hu := hts u hu
    rw [unsigned, if_neg (by simp [hneg])] at hu
    rw [show latex.plus (α := ℚ) = Style.spaced "+" from rfl, Style.symbols_spaced (c := '+') rfl rfl]
    exact .plus hw hu
  · have hu := hts u hu
    rw [unsigned, if_pos hneg] at hu
    rw [show latex.minus (α := ℚ) = Style.spaced "-" from rfl, Style.symbols_spaced (c := '-') rfl rfl]
    exact .minus hw hu

/-- Inside a product or a sum a legible tree is a row, with a sign if it begins with a minus; anywhere
    else it is a sum. -/
theorem Legible.renderNested (h : Legible e) (he : Writable (fun _ => True) e) (ρ : Assignment) :
    Latex.Written ρ.1 (e.renderNested latex true) (e.meaning ρ) ∧
      Latex.Reads ρ.1 .sum (symbols (e.renderNested latex false)) (e.meaning ρ) := by
  induction h with
  | const v =>
    cases he with
    | const hv =>
      have hwritten := Latex.written_number (ρ := ρ.1) hv
      rw [Expr.renderNested, Expr.renderNested]
      exact ⟨hwritten, .signed hwritten.signed⟩
  | var m =>
    cases he with
    | var hn hq hm _ =>
      have hwritten := Latex.written_monomial hn hq hm ρ
      rw [Expr.renderNested, Expr.renderNested]
      exact ⟨hwritten, .signed hwritten.signed⟩
  | @sum t ts _ _ iht ihts =>
    cases he with
    | sum _ he =>
      obtain ⟨ht, hts⟩ := List.forall_mem_cons.mp he
      have hsum := reads_renderTerms (iht ht).1.signed fun u hu => (ihts u hu (hts u hu).unsigned).1.signed
      rw [Expr.renderNested, Expr.renderNested]
      exact ⟨.of_row (Latex.reads_parenthesis hsum), hsum⟩
  | product _ _ hminus ihf ihfs =>
    cases he with
    | product _ he =>
      obtain ⟨hf, hfs⟩ := List.forall_mem_cons.mp he
      have hwritten := written_joinFactors (ihf hf).1 fun g hg => (ihfs g hg (hfs g hg)).1.row (hminus g hg)
      rw [Expr.renderNested, Expr.renderNested]
      exact ⟨hwritten, .signed hwritten.signed⟩

/-! ## Reading a text -/

/-- The text of a legible expression is read as its value and as nothing else. -/
theorem render_latex_reads (he : Writable (fun _ => True) e) (h : Legible e) (ρ : Assignment) :
    Latex.Reads ρ.1 .sum (symbols (e.render latex)) v ↔ v = e.eval ρ.1 := by
  have hvalue : Latex.Reads ρ.1 .sum (symbols (e.render latex)) (e.eval ρ.1) := (h.renderNested he ρ).2
  constructor
  · intro hv
    exact hv.unique hvalue
  · rintro rfl
    exact hvalue

/-- Legible expressions whose texts have the same words have the same value. -/
theorem render_latex_determines {a b : Expr ℚ} (ha : Writable (fun _ => True) a) (hb : Writable (fun _ => True) b)
    (hla : Legible a) (hlb : Legible b)
    (hwords : Latex.words (a.render latex).toList = Latex.words (b.render latex).toList)
    {ρ : String → ℚ} (hρ : ∀ n, ρ n ≠ 0) : a.eval ρ = b.eval ρ := by
  have hreads := (render_latex_reads ha hla ⟨ρ, hρ⟩).mpr rfl
  rw [symbols, hwords] at hreads
  exact (render_latex_reads hb hlb ⟨ρ, hρ⟩).mp hreads

/-- Two ways to subtract twice a square, both of which are written `x - 2 \mu^{2}`. -/
theorem render_latex_determines_difference :
    let a : Expr ℚ := .sum [.var ⟨"x", 1, 1⟩, .product [.const (-2), .var ⟨"mu", 1, 2⟩]]
    let b : Expr ℚ := .sum [.var ⟨"x", 1, 1⟩, .var ⟨"mu", -2, 2⟩]
    Writable (fun _ => True) a ∧ Writable (fun _ => True) b ∧ Legible a ∧ Legible b ∧
      Latex.words (a.render latex).toList = Latex.words (b.render latex).toList ∧
      a.eval (fun _ => 3) = b.eval (fun _ => 3) := by
  intro a b
  have one : Rational.IsDecimal 1 := ⟨1, 0, by norm_num⟩
  have minusTwo : Rational.IsDecimal (-2) := ⟨-2, 0, by norm_num⟩
  have x : Writable (fun _ => True) (.var ⟨"x", 1, 1⟩) :=
    .var ⟨'x', [], rfl, by decide, by simp⟩ one (k := 1) (by norm_num) trivial
  have hname : IsIdentifier "mu" := ⟨'m', ['u'], by decide, by decide, List.all_eq_true.mp rfl⟩
  have mu {q : ℚ} (hq : Rational.IsDecimal q) : Writable (fun _ => True) (.var ⟨"mu", q, 2⟩) :=
    .var hname hq (k := 2) (by norm_num) trivial
  have ha : Writable (fun _ => True) a := .sum (by simp) (by simp [x, Writable.product, Writable.const minusTwo, mu one])
  have hb : Writable (fun _ => True) b := .sum (by simp) (by simp [x, mu minusTwo])
  have hsquare : ¬ BeginsWithMinus (.var ⟨"mu", 1, 2⟩) := by
    have htext : (renderNested latex true (.var ⟨"mu", 1, 2⟩ : Expr ℚ)).toList.head? = some '\\' := by cbv
    rw [BeginsWithMinus, htext]
    decide
  have hunsigned : unsigned (.product [.const (-2), .var ⟨"mu", 1, 2⟩]) = .product [.const 2, .var ⟨"mu", 1, 2⟩] := by cbv
  have hla : Legible a := by
    refine .sum (.var _) ?_
    simp only [List.forall_mem_singleton, hunsigned]
    exact .product (.const 2) (by simp [Legible.var]) (by simpa using hsquare)
  have hlb : Legible b := by
    have hmonomial : unsigned (.var ⟨"mu", -2, 2⟩) = .var ⟨"mu", 2, 2⟩ := by cbv
    exact .sum (.var _) (by simp [hmonomial, Legible.var])
  have htext : a.render latex = b.render latex := by cbv
  have hwords : Latex.words (a.render latex).toList = Latex.words (b.render latex).toList := by rw [htext]
  exact ⟨ha, hb, hla, hlb, hwords, render_latex_determines ha hb hla hlb hwords fun _ => three_ne_zero⟩

/-- A product whose second factor is negative is written like the difference. -/
theorem render_latex_conflates :
    let a : Expr ℚ := .product [.var ⟨"x", 1, 1⟩, .const (-2)]
    let b : Expr ℚ := .sum [.var ⟨"x", 1, 1⟩, .const (-2)]
    Writable (fun _ => True) a ∧ Writable (fun _ => True) b ∧ a.render latex = "x -2" ∧ b.render latex = "x - 2" ∧
      Latex.words (a.render latex).toList = Latex.words (b.render latex).toList ∧
      a.eval (fun _ => 2) = -4 ∧ b.eval (fun _ => 2) = 0 := by
  intro a b
  have minusTwo : Writable (fun _ => True) (.const (-2)) := .const ⟨-2, 0, by norm_num⟩
  have x : Writable (fun _ => True) (.var ⟨"x", 1, 1⟩) :=
    .var ⟨'x', [], rfl, by decide, by simp⟩ ⟨1, 0, by norm_num⟩ (k := 1) (by norm_num) trivial
  have ha : a.render latex = "x -2" := by cbv
  have hb : b.render latex = "x - 2" := by cbv
  have hwords : Latex.words "x -2".toList = Latex.words "x - 2".toList := by cbv
  exact ⟨.product (by simp) (by simp [x, minusTwo]), .sum (by simp) (by simp [x, minusTwo]), ha, hb, by rw [ha, hb, hwords],
    by cbv, by cbv⟩

end Expr

end SymbolicAlgebra
