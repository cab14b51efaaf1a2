/-
  SymbolicAlgebra.Proofs.Rendering.Spacing — blanks are all that the spaced form of the definition
  language adds.

  The walk over a tree asks a style for one piece after the other, and decides from the tree alone which.
  So what holds between the pieces of two styles holds between what they write for a tree
  (`Style.Related.render`). Each piece of the compact form has the marks that it has with blanks in it:
  where a text ends without a blank, no name and no number goes on with what follows it. A program is
  therefore cut into the same tokens in either form (`render_plain_marks`).

  For the rows of a grid this takes as many cells as there are places. A row that the dimensions do not
  promise would follow the one before it without a semicolon, and then a line break counts
  (`render_overfull_differs`).
-/

import SymbolicAlgebra.Proofs.Matrices.Filling
import SymbolicAlgebra.Proofs.Rendering.Plain

namespace SymbolicAlgebra

/-! ## Two styles -/

/-- What holds between texts holds between the pieces that two styles make of them. -/
structure Style.Related {α : Type} (R : String → String → Prop) (s s' : Style α) : Prop where
  empty : R "" ""
  constant (v : α) : R (s.constant v) (s'.constant v)
  name (n : String) : R (s.name n) (s'.name n)
  matrix {g : Grid String} {texts : List String} : g.Filled → List.Forall₂ R g.cells texts →
    R (s.matrix g.shape g.cells) (s'.matrix g.shape texts)
  parenthesis {t t' : String} : R t t' → R (s.parenthesis t) (s'.parenthesis t')
  negate {t t' : String} : R t t' → R (s.negate t) (s'.negate t')
  plus {t t' u u' : String} : R t t' → R u u' → R (s.plus t u) (s'.plus t' u')
  minus {t t' u u' : String} : R t t' → R u u' → R (s.minus t u) (s'.minus t' u')
  times {t t' u u' : String} : R t t' → R u u' → R (s.times t u) (s'.times t' u')
  divide {t t' u u' : String} : R t t' → R u u' → R (s.divide t u) (s'.divide t' u')
  power {t t' u u' : String} : R t t' → R u u' → R (s.power t u) (s'.power t' u')

namespace Style.Related

open SymbolicAlgebra.Expr

variable {α : Type} [Scalar α] {R : String → String → Prop} {s s' : Style α} {t t' : String} {es : List (Expr α)}

theorem renderPower (h : Related R s s') (n : String) (exponent : α) :
    R (Monomial.renderPower s n exponent) (Monomial.renderPower s' n exponent) := by
  unfold Monomial.renderPower
  split
  · exact h.name n
  · exact h.power (h.name n) (h.constant exponent)

theorem monomial (h : Related R s s') (m : Monomial α) : R (m.render s) (m.render s') := by
  unfold Monomial.render
  split
  · exact h.constant m.quantity
  · split
    · have hbottom := h.renderPower m.name (-m.exponent)
      dsimp only
      split
      · exact h.parenthesis (h.negate (h.divide (h.constant 1) hbottom))
      · exact h.divide (h.constant m.quantity) hbottom
    · have hpower := h.renderPower m.name m.exponent
      dsimp only
      split
      · exact hpower
      · split
        · exact h.parenthesis (h.negate hpower)
        · exact h.times (h.constant m.quantity) hpower

theorem renderEach {nested : Bool} (hes : ∀ e ∈ es, R (e.renderNested s nested) (e.renderNested s' nested)) :
    List.Forall₂ R (renderEach s nested es) (renderEach s' nested es) := by
  rw [renderEach_eq_map, renderEach_eq_map, List.forall₂_map_left_iff, List.forall₂_map_right_iff, List.forall₂_same]
  exact hes

omit [Scalar α] in
theorem joinFactors (h : Related R s s') {ts us : List String} (hts : List.Forall₂ R ts us) :
    R (joinFactors s ts) (joinFactors s' us) := by
  cases hts with
  | nil => exact h.empty
  | @cons t t' ts us ht hts =>
    show R (ts.foldl s.times t) (us.foldl s'.times t')
    induction hts generalizing t t' with
    | nil => exact ht
    | cons hu _ ih => exact ih (h.times ht hu)

theorem renderMore (h : Related R s s') (ht : R t t')
    (hes : ∀ e ∈ es, R (e.renderNested s true) (e.renderNested s' true) ∧
      (e.isNegative = true → R (e.neg.renderNested s true) (e.neg.renderNested s' true))) :
    R (renderMore s t es) (renderMore s' t' es) := by
  induction es generalizing t t' with
  | nil =>
    rw [Expr.renderMore, Expr.renderMore]
    exact ht
  | cons e es ih =>
    obtain ⟨⟨he, hneg⟩, hes⟩ := List.forall_mem_cons.mp hes
    rw [Expr.renderMore, Expr.renderMore]
    split
    · rename_i hn
      exact ih (h.minus ht (hneg hn)) hes
    · exact ih (h.plus ht he) hes

theorem renderTerms (h : Related R s s')
    (hes : ∀ e ∈ es, R (e.renderNested s true) (e.renderNested s' true) ∧
      (e.isNegative = true → R (e.neg.renderNested s true) (e.neg.renderNested s' true))) :
    R (renderTerms s es) (renderTerms s' es) := by
  cases es with
  | nil =>
    rw [Expr.renderTerms, Expr.renderTerms]
    exact h.empty
  | cons e es =>
    obtain ⟨⟨he, -⟩, hes⟩ := List.forall_mem_cons.mp hes
    rw [Expr.renderTerms, Expr.renderTerms]
    exact h.renderMore he hes

theorem renderNested (h : Related R s s') {e : Expr α} (he : FilledIn e) (nested : Bool) :
    R (e.renderNested s nested) (e.renderNested s' nested) := by
  -- by size, since what is written in the place of a term may be the negated term
  suffices ∀ n, ∀ e : Expr α, e.size < n → FilledIn e → ∀ nested, R (e.renderNested s nested) (e.renderNested s' nested) from
    this _ e (Nat.lt_succ_self _) he nested
  intro n
  induction n with
  | zero => intro e hn; omega
  | succ n ih =>
    intro e hn he nested
    cases e with
    | const v =>
      rw [Expr.renderNested, Expr.renderNested]
      exact h.constant v
    | var m =>
      rw [Expr.renderNested, Expr.renderNested]
      exact h.monomial m
    | sum ts =>
      have hterms : R (Expr.renderTerms s ts) (Expr.renderTerms s' ts) := h.renderTerms fun t ht => by
        have hsize := size_term_lt ht
        refine ⟨ih t (by omega) (he.child ht) true, fun hneg => ih t.neg ?_ (he.child ht).neg true⟩
        rw [size_neg_of_isNegative hneg]
        omega
      rw [Expr.renderNested, Expr.renderNested]
      split
      · exact h.parenthesis hterms
      · exact hterms
    | product fs =>
      rw [Expr.renderNested, Expr.renderNested]
      refine h.joinFactors (renderEach fun f hf => ?_)
      have hsize := size_factor_lt hf
      exact ih f (by omega) (he.child hf) true
    | matrix g =>
      have hcells : List.Forall₂ R (Expr.renderEach s false g.cells) (Expr.renderEach s' false g.cells) := renderEach fun c hc => by
        have hsize := size_cell_lt hc
        exact ih c (by omega) (he.child hc) false
      rw [Expr.renderNested, Expr.renderNested]
      refine h.matrix (g := ⟨g.rows, g.cols, Expr.renderEach s false g.cells⟩) ?_ hcells
      rw [Grid.Filled, renderEach_eq_map, List.length_map]
      exact he g .root

/-- What two styles write for a tree is related as their pieces are. -/
theorem render (h : Related R s s') {e : Expr α} (he : FilledIn e) : R (e.render s) (e.render s') :=
  h.renderNested he false

end Style.Related

/-! ## Rows of a grid -/

namespace Style

open Source

/-- The texts have the same marks. -/
def SameMarks (t u : String) : Prop := marks t = marks u

/-- Cells with commas between them, with and without blanks. -/
theorem row_sameMarks {ts us : List String} (h : List.Forall₂ SameMarks ts us) :
    SameMarks (joinWith ", " ts) (joinWith "," us) := by
  induction h with
  | nil => rfl
  | @cons t u ts us ht hts ih =>
    cases hts with
    | nil => exact ht
    | cons hv hvs =>
      unfold SameMarks at ht ih ⊢
      have hspaced (t u : String) : marks (t ++ ", " ++ u) = _ := marks_comma true t u
      have hcompact (t u : String) : marks (t ++ "," ++ u) = _ := marks_comma false t u
      rw [joinWith, joinWith, hspaced, hcompact, ht, ih]

/-- Rows with semicolons between them, if there are as many as the dimensions promise. -/
theorem rows_sameMarks {rows rows' : List (List String)} (h : List.Forall₂ (List.Forall₂ SameMarks) rows rows')
    {n i : Nat} (hn : n = i + rows.length) : SameMarks (plainRows true n i rows) (plainRows false n i rows') := by
  induction h generalizing i with
  | nil => rfl
  | cons hrow hrows ih =>
    have hrow := row_sameMarks hrow
    have hrest := ih (i := i + 1) (by rw [hn, List.length_cons]; omega)
    unfold SameMarks at hrow hrest ⊢
    rw [List.length_cons] at hn
    cases hrows with
    | nil =>
      have hlast : ¬ i + 1 < n := by simp [hn]
      rw [marks_plainRows_last true hlast, marks_plainRows_last false hlast]
      exact hrow
    | cons _ _ =>
      rw [List.length_cons] at hn
      have hmore : i + 1 < n := by omega
      rw [marks_plainRows_cons true hmore, marks_plainRows_cons false hmore, hrest]
      exact congrArg (· ++ _) hrow

theorem matrix_sameMarks {g : Grid String} {texts : List String} (hg : g.Filled) (h : List.Forall₂ SameMarks g.cells texts) :
    SameMarks (plainMatrix true g.shape g.cells) (plainMatrix false g.shape texts) := by
  have hrows : SameMarks (plainRows true g.rows 0 (chunks g.cols g.cells)) (plainRows false g.rows 0 (chunks g.cols texts)) := by
    rcases hg.length_chunks with hnil | hlength
    · rw [hnil] at h ⊢
      cases h
      rw [chunks]
      rfl
    · exact rows_sameMarks (chunks_forall₂ h) (by rw [Nat.zero_add, hlength])
  unfold SameMarks at hrows ⊢
  rw [marks_plainMatrix, marks_plainMatrix]
  exact congrArg (fun ms => _ :: (ms ++ _)) hrows

/-! ## The definition language -/

theorem operator_sameMarks {c : Char} {kind : TokenKind} {sign t t' u u' : String} (hc : Token.sign? c = some kind)
    (hsign : sign.toList = [c]) (ht : SameMarks t t') (hu : SameMarks u u') :
    SameMarks (operator true sign t u) (operator false sign t' u') := by
  unfold SameMarks at ht hu ⊢
  rw [marks_operator hc hsign, marks_operator hc hsign, ht, hu]

variable {α : Type} [Scalar α]

/-- The pieces of the two forms have the same marks. -/
theorem plain_related : Related (α := α) SameMarks (.plain true) (.plain false) where
  empty := rfl
  constant v := by
    unfold SameMarks plain
    dsimp only
    split
    · rw [marks_parenthesis, marks_parenthesis]
    · rfl
  name _ := rfl
  matrix := matrix_sameMarks
  parenthesis {t t'} h := by
    show marks (plainParenthesis true t) = marks (plainParenthesis false t')
    rw [marks_parenthesis, marks_parenthesis, h]
  negate {t t'} h := by
    show marks ("-" ++ t) = marks ("-" ++ t')
    rw [marks_negate, marks_negate, h]
  plus := operator_sameMarks (c := '+') rfl rfl
  minus := operator_sameMarks (c := '-') rfl rfl
  times := operator_sameMarks (c := '*') rfl rfl
  divide := operator_sameMarks (c := '/') rfl rfl
  power {t t' u u'} ht hu := by
    show marks (t ++ "^" ++ u) = marks (t' ++ "^" ++ u')
    rw [marks_power, marks_power, ht, hu]

/-- A definition ends with its semicolon, whatever follows it. -/
theorem marks_assign (pretty : Bool) (name value rest : String) : marks ((plain (α := α) pretty).assign name value ++ rest) =
    marks name ++ (.assign, "=") :: (marks value ++ (.semicolon, ";") :: marks rest) := by
  have hsplit : marks ((plain (α := α) pretty).assign name value ++ rest) =
      marks (operator pretty "=" name value ++ ";" ++ ((if pretty then "\n" else "") ++ rest)) := by
    cases pretty with
    | false => exact congrArg marks (by simp [plain, operator])
    | true =>
      have hend : ";\n" ++ rest = ";" ++ ("\n" ++ rest) := by
        rw [← String.append_assoc]
        rfl
      exact congrArg marks (by simp [plain, operator, spaced, String.append_assoc, hend])
  have hline : marks ((if pretty then "\n" else "") ++ rest) = marks rest := by
    split
    · exact marks_blank rfl rest
    · rw [String.empty_append]
  rw [hsplit, marks_semicolon, hline, marks_operator (c := '=') rfl rfl, List.append_assoc, List.cons_append]

end Style

/-! ## Programs -/

namespace Program

open SymbolicAlgebra.Expr Style

variable {α : Type} [Scalar α]

/-- Definitions written one after the other, in the two forms of the language, are the same tokens, blanks
    and places apart: the same kinds with the same texts. The grids in them have a cell for every place, as
    all have that can be made. -/
theorem render_plain_marks (p : Program α) (h : ∀ name value, (name, value) ∈ p.definitions → FilledIn value) :
    Token.marks (Token.scan (p.render (.plain true))) = Token.marks (Token.scan (p.render (.plain false))) := by
  obtain ⟨ds⟩ := p
  show Source.marks (String.join (ds.map _)) = Source.marks (String.join (ds.map _))
  induction ds with
  | nil => rfl
  | cons d ds ih =>
    obtain ⟨name, value⟩ := d
    have hvalue := plain_related.render (h name value List.mem_cons_self)
    have ih := ih fun name value hd => h name value (List.mem_cons_of_mem _ hd)
    rw [List.map_cons, List.map_cons, String.join_cons, String.join_cons, marks_assign, marks_assign, hvalue, ih]

/-- Two rows, a sum inside a product, a power and a negative number. -/
theorem render_plain_marks_grid :
    Token.marks (Token.scan "A = [\n    x^2, ( -0.5 );\n    2 * ( x + 1 ), y\n];\nb = 3;\n") =
      Token.marks (Token.scan "A=[x^2,(-0.5);2*(x+1),y];b=3;") := by
  let p : Program ℚ := ⟨[("A", .matrix ⟨2, 2, [.var ⟨"x", 1, 2⟩, .const (-1 / 2),
    .product [.const 2, .sum [.ofName "x", .const 1]], .ofName "y"]⟩), ("b", .const 3)]⟩
  have h : ∀ name value, (name, value) ∈ p.definitions → FilledIn value := by
    intro name value hmem
    refine filledIn_iff.mpr ?_
    simp only [p, List.mem_cons, Prod.mk.injEq, List.not_mem_nil, or_false] at hmem
    rcases hmem with ⟨-, rfl⟩ | ⟨-, rfl⟩
    · simp [filling, ofName]
    · exact .const 3
  have hspaced : p.render (.plain true) = "A = [\n    x^2, ( -0.5 );\n    2 * ( x + 1 ), y\n];\nb = 3;\n" := by cbv
  have hcompact : p.render (.plain false) = "A=[x^2,(-0.5);2*(x+1),y];b=3;" := by cbv
  rw [← hspaced, ← hcompact]
  exact render_plain_marks p h

/-- A cell too many is on a line of its own in the spaced form, and joins the one before it in the compact
    form. -/
theorem render_overfull_differs :
    let p : Program ℚ := ⟨[("A", .matrix ⟨1, 1, [.ofName "x", .ofName "y"]⟩)]⟩
    Token.marks (Token.scan (p.render (.plain true))) ≠ Token.marks (Token.scan (p.render (.plain false))) := by
  intro p
  have hspaced : Token.marks (Token.scan (p.render (.plain true))) = [(.name, "A"), (.assign, "="), (.openSquare, "["),
    (.name, "x"), (.name, "y"), (.closeSquare, "]"), (.semicolon, ";")] := by cbv
  have hcompact : Token.marks (Token.scan (p.render (.plain false))) = [(.name, "A"), (.assign, "="), (.openSquare, "["),
    (.name, "xy"), (.closeSquare, "]"), (.semicolon, ";")] := by cbv
  rw [hspaced, hcompact]
  decide

end Program

end SymbolicAlgebra
