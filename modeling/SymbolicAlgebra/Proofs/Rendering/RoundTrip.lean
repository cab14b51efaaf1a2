/-
  SymbolicAlgebra.Proofs.Rendering.RoundTrip — the parser reads back what is written in the definition
  language.

  What `Rendering.Plain` says of trees carries over to grids: the cells of a grid are cut into rows,
  written between brackets, and the words of the whole are those of a parse tree with the same rows
  (`words_plainMatrix`). The parser then takes all of the text and comes to an expression that has, for
  all numbers other than zero that the names can stand for, the same value as the one that was written,
  cell by cell (`parse_render_plain`).
-/

import SymbolicAlgebra.Proofs.Grammar.Extents
import SymbolicAlgebra.Proofs.Grids
import SymbolicAlgebra.Proofs.Rendering.Plain

namespace SymbolicAlgebra

/-! ## The words of a grid -/

namespace Style

open Source

variable {β : Type} {text : β → String} {tree : β → ParseTree}

/-- The cells of a row with commas between them. -/
theorem words_row (pretty : Bool) {row : List β} (h : ∀ x ∈ row, words (text x) = (tree x).words) :
    words (joinWith (if pretty then ", " else ",") (row.map text)) = ParseTree.wordsOfRow (row.map tree) := by
  have hcomma (t u : String) : words (t ++ (if pretty then ", " else ",") ++ u) = words t ++ .sign .comma :: words u := by
    simp [words_eq_map, marks_comma, Word.ofMark]
  induction row with
  | nil => exact words_empty
  | cons x row ih =>
    obtain ⟨hx, hrow⟩ := List.forall_mem_cons.mp h
    cases row with
    | nil => simp [joinWith, ParseTree.wordsOfRow, ParseTree.separator, hx]
    | cons y row =>
      rw [List.map_cons, List.map_cons, List.map_cons, List.map_cons, joinWith, hcomma, hx, ← List.map_cons, ih hrow,
        ParseTree.wordsOfRow]
      simp [ParseTree.separator]

/-- The rows with semicolons between them, when there are as many as the shape promises. -/
theorem words_rows (pretty : Bool) {rows : List (List β)} (h : ∀ row ∈ rows, ∀ x ∈ row, words (text x) = (tree x).words)
    {n i : Nat} (hn : n = i + rows.length) :
    words (plainRows pretty n i (rows.map (List.map text))) = ParseTree.wordsOfRows (rows.map (List.map tree)) := by
  induction rows generalizing i with
  | nil => exact words_empty
  | cons row rows ih =>
    obtain ⟨hrow, hrows⟩ := List.forall_mem_cons.mp h
    have hrow := words_row pretty hrow
    have hrest := ih hrows (i := i + 1) (by rw [hn, List.length_cons]; omega)
    rw [words_eq_map] at hrow hrest
    rw [List.length_cons] at hn
    cases rows with
    | nil =>
      rw [List.map_cons, List.map_nil, words_eq_map, marks_plainRows_last pretty (by simp [hn]), hrow]
      simp [ParseTree.wordsOfRows, ParseTree.separator]
    | cons next rows =>
      rw [List.length_cons] at hn
      rw [List.map_cons, words_eq_map, marks_plainRows_cons pretty (by omega), List.map_append, List.map_cons, hrow, hrest]
      simp [ParseTree.wordsOfRows, ParseTree.separator, Word.ofMark]

theorem words_plainMatrix (pretty : Bool) {g : Grid β} (hw : 0 < g.cols) (hg : g.Filled)
    (h : ∀ x ∈ g.cells, words (text x) = (tree x).words) :
    words (plainMatrix pretty g.shape (g.cells.map text)) =
      (ParseTree.matrix ((chunks g.cols g.cells).map (List.map tree))).words := by
  obtain ⟨hlength, hflatten, -⟩ := chunks_rows hw hg
  have hcells : ∀ row ∈ chunks g.cols g.cells, ∀ x ∈ row, words (text x) = (tree x).words := fun row hrow x hx =>
    h x (by rw [← hflatten]; exact List.mem_flatten_of_mem hrow hx)
  have hrows := words_rows pretty hcells (n := g.rows) (i := 0) (by omega)
  rw [words_eq_map] at hrows
  rw [words_eq_map, marks_plainMatrix, List.map_cons, List.map_append, Grid.shape, chunks_map, hrows, ParseTree.words]
  rfl

end Style

/-! ## The value of a grid -/

namespace ParseTree

variable {β : Type} {tree : β → ParseTree} {value : β → Expr ℚ}

theorem row?_map {row : List β} (h : ∀ x ∈ row, (tree x).expr? = some (value x)) :
    ParseTree.row? (row.map tree) = some (row.map value) := by
  induction row with
  | nil => rw [List.map_nil, List.map_nil, ParseTree.row?]
  | cons x row ih =>
    obtain ⟨hx, hrow⟩ := List.forall_mem_cons.mp h
    simp [ParseTree.row?, hx, ih hrow]

theorem rows?_map {rows : List (List β)} (h : ∀ row ∈ rows, ∀ x ∈ row, (tree x).expr? = some (value x)) :
    ParseTree.rows? (rows.map (List.map tree)) = some (rows.map (List.map value)) := by
  induction rows with
  | nil => rw [List.map_nil, List.map_nil, ParseTree.rows?]
  | cons row rows ih =>
    obtain ⟨hrow, hrows⟩ := List.forall_mem_cons.mp h
    simp [ParseTree.rows?, row?_map hrow, ih hrows]

end ParseTree

/-! ## Reading back -/

namespace Expr

/-- The second tree has no grids, and stands for the same number as the first, whatever numbers other
    than zero the names stand for. -/
def SameNumber (e e' : Expr ℚ) : Prop :=
  Gridless e' ∧ ∀ ρ : String → ℚ, (∀ n, ρ n ≠ 0) → ∃ v, Denotes ρ e v ∧ Denotes ρ e' v

/-- The same number, or grids of one shape with the same numbers cell by cell. -/
def SameValue : Expr ℚ → Expr ℚ → Prop
  | .matrix g, .matrix g' => g.shape = g'.shape ∧ List.Forall₂ SameNumber g.cells g'.cells
  | .matrix _, _ => False
  | e, e' => SameNumber e e'

end Expr

/-- A tree that the definition language can express, or a grid of them that is not empty. -/
inductive Expressible : Expr ℚ → Prop
  | number {e : Expr ℚ} : Writable Style.Simple e → Expressible e
  | matrix {g : Grid (Expr ℚ)} : g.Filled → 0 < g.rows → 0 < g.cols → (∀ c ∈ g.cells, Writable Style.Simple c) →
      Expressible (.matrix g)

/-- The exponents are whole, so no name but zero stands in the way of a value. -/
theorem Writable.definedAt {exponent : ℤ → Prop} {e : Expr ℚ} (h : Writable exponent e) {ρ : String → ℚ} (hρ : ∀ n, ρ n ≠ 0) :
    Expr.DefinedAt ρ e := by
  induction h with
  | const _ => exact .const _
  | @var m k _ _ hk _ => exact .var ⟨k, hk, fun _ => hρ m.name⟩
  | sum _ _ ih => exact .sum ih
  | product _ _ ih => exact .product ih

/-- What is written has a parse tree with the value of the tree that it was written for. -/
theorem Writable.spelled (pretty : Bool) {e : Expr ℚ} (he : Writable Style.Simple e) : ∃ (t : ParseTree) (v : Expr ℚ),
    t.Fits .expr ∧ Source.words (e.render (.plain pretty)) = t.words ∧ t.expr? = some v ∧ e.SameNumber v := by
  obtain ⟨t, hfits, hwords, htame, hnumber⟩ := ParseTree.Spelled.precedence.of_terms ((Style.plain_reading pretty).render he)
  obtain ⟨v, hv, hgridless⟩ := htame.expr?
  refine ⟨t, v, hfits, hwords.symm, hv, hgridless, ?_⟩
  intro ρ hρ
  exact ⟨e.meaning ⟨ρ, hρ⟩, ⟨he.definedAt hρ, rfl⟩, ParseTree.expr?_denotes hv (hnumber ⟨ρ, hρ⟩)⟩

/-- So has a grid. -/
theorem Grid.spelled (pretty : Bool) {g : Grid (Expr ℚ)} (hg : g.Filled) (hr : 0 < g.rows) (hw : 0 < g.cols)
    (hcells : ∀ c ∈ g.cells, Writable Style.Simple c) : ∃ (t : ParseTree) (h : Grid (Expr ℚ)), t.Fits .expr ∧
      Source.words ((Expr.matrix g).render (.plain pretty)) = t.words ∧ t.expr? = some (.matrix h) ∧
      g.shape = h.shape ∧ List.Forall₂ Expr.SameNumber g.cells h.cells := by
  have : Nonempty ParseTree := ⟨.name ""⟩
  have : Nonempty (Expr ℚ) := ⟨.matrix g⟩
  -- A tree and a value for every cell at once, so that rows of them can be formed.
  choose! tree value hfits hwords hvalue hsame using fun c hc => (hcells c hc).spelled pretty
  obtain ⟨hlength, hflatten, hall⟩ := chunks_rows hw hg
  have hmem : ∀ row ∈ chunks g.cols g.cells, ∀ c ∈ row, c ∈ g.cells := fun row hrow c hc => by
    rw [← hflatten]
    exact List.mem_flatten_of_mem hrow hc
  have htext : (Expr.matrix g).render (.plain pretty) =
      Style.plainMatrix pretty g.shape (g.cells.map (Expr.render (.plain pretty))) := Expr.render_matrix (.plain pretty) g
  refine ⟨.matrix ((chunks g.cols g.cells).map (List.map tree)), ⟨g.rows, g.cols, g.cells.map value⟩, ?_, ?_, ?_, rfl, ?_⟩
  · refine .term (.unary (.primed (.operand (.matrix ?_ ?_ ?_))))
    · rw [← List.length_pos_iff, List.length_map, hlength]
      exact hr
    · refine List.forall_mem_map.mpr fun row hrow => ?_
      rw [← List.length_pos_iff, List.length_map, hall row hrow]
      exact hw
    · exact List.forall_mem_map.mpr fun row hrow => List.forall_mem_map.mpr fun c hc => hfits c (hmem row hrow c hc)
  · rw [htext, Style.words_plainMatrix pretty hw hg hwords]
  · have hlevel : (g.cells.map value).length = g.rows * g.cols := by
      rw [List.length_map]
      exact hg
    rw [ParseTree.expr?, ParseTree.rows?_map fun row hrow c hc => hvalue c (hmem row hrow c hc), ← chunks_map]
    simp [ofRows?_chunks hw hr hlevel]
  · rw [List.forall₂_map_right_iff, List.forall₂_same]
    exact hsame

namespace Parser

/-- A text that is written as a parse tree with a value is read to its end, and comes to that value. -/
theorem attempt_of_words {source : String} {t : ParseTree} (hfits : t.Fits .expr) (hwords : Source.words source = t.words)
    {v : Expr ℚ} (hv : t.expr? = some v) :
    ∃ r p', (ofSource source).attempt Grammar.expr = (.ok r, p') ∧ p'.atEnd = true ∧ r.value = v := by
  obtain ⟨r, c, hresult, hvalue, hc⟩ := Grammar.expr_of_all_words hfits hwords hv
  obtain ⟨p', hattempt, hend⟩ := attempt_of_result Grammar.expr_exact hresult hc
  exact ⟨r, p', hattempt, hend, hvalue⟩

/-- What is written in the definition language, spaced out or not, is read back: the parser succeeds,
    takes the whole text, and comes to the value that was written. -/
theorem parse_render_plain (pretty : Bool) {e : Expr ℚ} (he : Expressible e) :
    ∃ r p', (ofSource (e.render (.plain pretty))).attempt Grammar.expr = (.ok r, p') ∧ p'.atEnd = true ∧
      e.SameValue r.value := by
  cases he with
  | number he =>
    obtain ⟨t, v, hfits, hwords, hv, hsame⟩ := he.spelled pretty
    obtain ⟨r, p', hattempt, hend, rfl⟩ := attempt_of_words hfits hwords hv
    refine ⟨r, p', hattempt, hend, ?_⟩
    cases he with
    | const => exact hsame
    | var => exact hsame
    | sum => exact hsame
    | product => exact hsame
  | @matrix g hg hr hw hcells =>
    obtain ⟨t, h, hfits, hwords, hv, hshape, hsame⟩ := Grid.spelled pretty hg hr hw hcells
    obtain ⟨r, p', hattempt, hend, hvalue⟩ := attempt_of_words hfits hwords hv
    refine ⟨r, p', hattempt, hend, ?_⟩
    rw [hvalue]
    exact ⟨hshape, hsame⟩

theorem parse_render_plain_grid :
    let e : Expr ℚ := .matrix ⟨1, 2,
      [.sum [.var ⟨"x", -1, -1⟩, .product [.const (-5 / 2), .sum [.var ⟨"y", 1, 1⟩, .const 1]]], .const 3]⟩
    e.render (.plain false) = "[(-1/x)-2.5*(y+1),3]" ∧
      ∃ r p', (ofSource (e.render (.plain false))).attempt Grammar.expr = (.ok r, p') ∧ p'.atEnd = true ∧ e.SameValue r.value := by
  have one : Rational.IsDecimal 1 := ⟨1, 0, by norm_num⟩
  have fraction : Rational.IsDecimal (-5 / 2) := ⟨-25, 1, by norm_num⟩
  have three : Rational.IsDecimal 3 := ⟨3, 0, by norm_num⟩
  have x : Writable Style.Simple (.var ⟨"x", -1, -1⟩) :=
    .var ⟨'x', [], rfl, by decide, by simp⟩ one.neg (k := -1) (by norm_num) (Or.inr (Or.inl rfl))
  have y : Writable Style.Simple (.var ⟨"y", 1, 1⟩) :=
    .var ⟨'y', [], rfl, by decide, by simp⟩ one (k := 1) (by norm_num) (Or.inl rfl)
  have factor : Writable Style.Simple (.sum [.var ⟨"y", 1, 1⟩, .const 1]) := .sum (by simp) (by simp [y, Writable.const one])
  have product : Writable Style.Simple (.product [.const (-5 / 2), .sum [.var ⟨"y", 1, 1⟩, .const 1]]) :=
    .product (by simp) (by simp [Writable.const fraction, factor])
  refine ⟨by cbv, parse_render_plain false (.matrix rfl Nat.one_pos Nat.two_pos ?_)⟩
  exact List.forall_mem_cons.mpr ⟨.sum (by simp) (by simp [x, product]), by simp [Writable.const three]⟩

end Parser

end SymbolicAlgebra
