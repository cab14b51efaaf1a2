/-
  SymbolicAlgebra.Proofs.Rendering.Glm — what C++ makes of the expressions that are written for GLM.

  The pieces of the style are taken for their words, as C++ cuts a text into words. Terms and sums are
  then rows of factors and of terms for its grammar (`glm_reading`), so an expression is read as its
  value and in no other way (`render_glm_readsAs`), unless it divides by a square. A square is written
  out as a multiplication, also below a division and without parentheses, so what is read is the
  quantity on its own (`render_glm_square_divisor`): `1 / x * x` is one.
-/

import SymbolicAlgebra.Proofs.Rendering.Cpp
import SymbolicAlgebra.Proofs.Rendering.Trees
import SymbolicAlgebra.Style.Glm

namespace SymbolicAlgebra

open Cpp (Reads ReadsAs)

/-! ## The words of the pieces -/

namespace Style

variable {c : Char} {kind : TokenKind} {sign t l r n : String} {v : ℚ}

theorem cpp_words_spaced (hc : Token.sign? c = some kind) (hsign : sign.toList = [c]) (l r : String) :
    Cpp.words (spaced sign l r).toList = Cpp.words l.toList ++ .sign kind :: Cpp.words r.toList := by
  have htext : (spaced sign l r).toList = l.toList ++ ' ' :: c :: ' ' :: r.toList := by
    simp [spaced, hsign]
  rw [htext, Cpp.words_append (by rfl) (by rfl), Cpp.words_blank (by rfl), Cpp.words_sign hc ?_, Cpp.words_blank (by rfl)]
  intro _ d hd
  cases hd
  rfl

theorem cpp_words_parenthesis (t : String) :
    Cpp.words ("(" ++ t ++ ")").toList = .sign .openParen :: (Cpp.words t.toList ++ [.sign .closeParen]) := by
  have htext : ("(" ++ t ++ ")").toList = '(' :: (t.toList ++ [')']) := by simp
  rw [htext, Cpp.words_bracket rfl (by rfl), Cpp.words_append (by rfl) (by rfl), Cpp.words_bracket rfl (by rfl), Cpp.words_nil]

theorem cpp_words_negate (ht : ∀ d, t.toList.head? = some d → Cpp.isOperator d = false) :
    Cpp.words ("-" ++ t).toList = .sign .sub :: Cpp.words t.toList := by
  rw [String.toList_append]
  exact Cpp.words_sign rfl fun _ => ht

theorem cpp_words_pow (l r : String) : Cpp.words ("pow(" ++ l ++ ", " ++ r ++ ")").toList =
    .name "pow" :: .sign .openParen :: (Cpp.words l.toList ++ .sign .comma :: (Cpp.words r.toList ++ [.sign .closeParen])) := by
  have htext : ("pow(" ++ l ++ ", " ++ r ++ ")").toList =
      ['p', 'o', 'w'] ++ '(' :: (l.toList ++ ',' :: ' ' :: (r.toList ++ [')'])) := by simp
  have hpow : Cpp.words ['p', 'o', 'w'] = [.name "pow"] := Cpp.words_run rfl (List.all_eq_true.mp rfl)
  rw [htext, Cpp.words_append (by rfl) (by rfl), hpow, Cpp.words_bracket rfl (by rfl), Cpp.words_append (by rfl) (by rfl),
    Cpp.words_bracket rfl (by rfl), Cpp.words_blank (by rfl), Cpp.words_append (by rfl) (by rfl),
    Cpp.words_bracket rfl (by rfl), Cpp.words_nil]
  rfl

/-- An underscore in a name selects a member. -/
theorem cpp_words_name (h : IsIdentifier n) : Cpp.words (glmName n).toList = [.name (glmName n)] := by
  obtain ⟨c, cs, hn, hc, hcs⟩ := h
  have hletter (d : Char) (hd : d.isAlpha = true) : Cpp.isPart d = true ∧ d ≠ '_' := by
    refine ⟨by simp [Cpp.isPart, Char.isAlphanum, hd], ?_⟩
    intro heq
    rw [heq] at hd
    cases hd
  have hdigit : c.isDigit = false := by
    by_contra hdigit
    rw [(Token.isDigit_start (by simpa using hdigit)).2] at hc
    cases hc
  have hrest : ∀ d ∈ cs.map fun c => if c = '_' then '.' else c, Cpp.isPart d = true := by
    refine List.forall_mem_map.mpr fun d hd => ?_
    split
    · rfl
    · rename_i hne
      exact (hletter d (by simpa [Token.isNamePart, hne] using hcs d hd)).1
  obtain ⟨hpart, hne⟩ := hletter c hc
  have htext : (glmName n).toList = c :: cs.map fun c => if c = '_' then '.' else c := by
    rw [glmName, String.toList_ofList, hn, List.map_cons, if_neg hne]
  rw [htext, Cpp.words_run hpart hrest, hdigit, ← htext, String.ofList_toList]
  rfl

/-- A number that is not negative is one word. -/
theorem cpp_words_number (h : Rational.IsDecimal v) (hv : 0 ≤ v) : Cpp.words (number v).toList = [.number (number v)] := by
  obtain ⟨d, k, hspells, -⟩ := Rational.spells_text h hv
  obtain ⟨c, rest, htext, hc, hrest⟩ := hspells.eq_cons
  have hpart : ∀ x ∈ rest, Cpp.isPart x = true := by
    intro x hx
    rcases hrest x hx with hx | rfl
    · simp [Cpp.isPart, Char.isAlphanum, hx]
    · rfl
  rw [number_eq_text, htext, Cpp.words_run (by simp [Cpp.isPart, Char.isAlphanum, hc]) hpart, if_pos hc, ← htext,
    String.ofList_toList]

end Style

/-! ## Readings of words -/

namespace Cpp

open Style (glmName)

variable {ws us : List Word} {v w : Meaning} {n : String}

/-- A name of C++ has the value of the name that it was written for. -/
def member (ρ : String → ℚ) (n : String) : ℚ := ρ (String.ofList (n.toList.map fun c => if c = '.' then '_' else c))

theorem member_glmName (h : IsIdentifier n) (ρ : String → ℚ) : member ρ (glmName n) = ρ n := by
  obtain ⟨c, cs, hn, hc, hcs⟩ := h
  have hpoint : ∀ d ∈ n.toList, d ≠ '.' := by
    rw [hn]
    refine List.forall_mem_cons.mpr ⟨?_, fun d hd => ?_⟩
    · rintro rfl
      cases hc
    · rintro rfl
      cases hcs '.' hd
  unfold member glmName
  rw [String.toList_ofList, List.map_map, List.map_congr_left (g := id) fun d hd => ?_, List.map_id, String.ofList_toList]
  by_cases hd' : d = '_'
  · simp [hd']
  · simp [hd', hpoint d hd]

/-- The words are read as what they mean, whatever the names stand for. -/
def Means (level : Level) (ws : List Word) (v : Meaning) : Prop := ∀ ρ : Assignment, Reads (member ρ.1) level ws (v ρ)

/-- The words are an operand that is never zero. -/
def Denominator (ws : List Word) (v : Meaning) : Prop := Means .operand ws v ∧ ∀ ρ, v ρ ≠ 0

theorem precedence : Precedence (Means .operand) Denominator (Means .term) (Means .expr) where
  operand h ρ := .unary (.operand (h ρ))
  negated h ρ := .unary (.neg (.operand (h ρ)))
  times h h' ρ := .mul (h ρ) (.operand (h' ρ))
  divided h h' ρ := .div (h ρ) (.operand (h'.1 ρ)) (h'.2 ρ)
  term h ρ := .term (h ρ)
  plus h h' ρ := .add (h ρ) (h' ρ)
  minus h h' ρ := .sub (h ρ) (h' ρ)

/-- A row of factors begins like its first operand. -/
theorem head_of_factors (h : Factors (Means .operand) Denominator ws v) :
    ∃ w us, ws = w :: us ∧ ∀ kind, w = .sign kind → kind = .openParen := by
  induction h with
  | single h => exact (h ⟨fun _ => 1, fun _ => one_ne_zero⟩).head
  | times _ _ ih =>
    obtain ⟨w, us, rfl, hw⟩ := ih
    exact ⟨w, _, List.cons_append, hw⟩
  | divided _ _ ih =>
    obtain ⟨w, us, rfl, hw⟩ := ih
    exact ⟨w, _, List.cons_append, hw⟩

/-- A text that is a row of terms is read as what it means. -/
theorem readsAs_of_terms {t : String} (h : Terms (Means .operand) Denominator (words t.toList) v) (ρ : Assignment) :
    ReadsAs (member ρ.1) t (v ρ) :=
  ⟨precedence.of_terms h ρ, fun _ hw => hw.unique (precedence.of_terms h ρ)⟩

end Cpp

/-! ## The style -/

namespace Style

open Cpp (Means Denominator member)

variable {n t : String} {k : ℤ} {v : Meaning} {q : ℚ}

theorem means_name (hn : IsIdentifier n) : Means .operand (Cpp.words (glmName n).toList) fun ρ => ρ.1 n := by
  intro ρ
  have hname := Reads.name (σ := member ρ.1) (glmName n)
  rw [Cpp.member_glmName hn] at hname
  rw [cpp_words_name hn]
  exact hname

theorem means_number (h : Rational.IsDecimal q) (hq : 0 ≤ q) : Means .operand (Cpp.words (number q).toList) fun _ => q := by
  intro ρ
  rw [cpp_words_number h hq]
  refine .number ?_
  rw [number_eq_text]
  exact Rational.ofText?_text h hq

/-- A row of terms in parentheses. -/
theorem means_parenthesis (h : Terms (Means .operand) Denominator (Cpp.words t.toList) v) :
    Means .operand (Cpp.words ("(" ++ t ++ ")").toList) v := by
  intro ρ
  rw [cpp_words_parenthesis]
  exact .paren (Cpp.precedence.of_terms h ρ)

/-- A row of factors does not begin with an operator, so a minus before it is a sign of its own. -/
theorem cpp_words_negate_factors (h : Factors (Means .operand) Denominator (Cpp.words t.toList) v) :
    Cpp.words ("-" ++ t).toList = .sign .sub :: Cpp.words t.toList := by
  refine cpp_words_negate fun d hd => ?_
  by_contra hoperator
  obtain ⟨ds, ht⟩ := List.head?_eq_some_iff.mp hd
  obtain ⟨kind, us, hwords, hkind⟩ := Cpp.words_operator_head (by simpa using hoperator) ds
  obtain ⟨w, us', hhead, hw⟩ := Cpp.head_of_factors h
  rw [ht, hwords] at hhead
  exact hkind (hw kind (List.cons.inj hhead).1.symm)

theorem glm_constant_of_nonneg (hq : 0 ≤ q) : glm.constant q = number q := if_neg (by simpa using hq)

theorem glm_constant_of_neg (hq : q < 0) : glm.constant q = "(" ++ number q ++ ")" := if_pos (by simpa using hq)

theorem means_pow (hn : IsIdentifier n) (hk : 0 < k) :
    Means .operand (Cpp.words ("pow(" ++ glmName n ++ ", " ++ number (k : ℚ) ++ ")").toList) fun ρ => ρ.1 n ^ k := by
  intro ρ
  have hnonneg : (0 : ℚ) ≤ k := by exact_mod_cast hk.le
  have hbase := means_name hn ρ
  have hexponent := means_number (Rational.IsDecimal.intCast k) hnonneg ρ
  rw [cpp_words_pow]
  exact .pow (.term (.unary (.operand hbase))) (.term (.unary (.operand hexponent))) fun hneg => absurd hneg (by omega)

/-- Numbers are told apart by their texts. -/
theorem number_eq_two (hk : 0 < k) : number (k : ℚ) = "2" ↔ k = 2 := by
  have hnonneg : (0 : ℚ) ≤ k := by exact_mod_cast hk.le
  rw [number_eq_text]
  constructor
  · intro htext
    have hread := Rational.ofText?_text (Rational.IsDecimal.intCast k) hnonneg
    have htwo : Rational.ofText? "2" = some 2 := by cbv
    rw [htext, htwo] at hread
    exact_mod_cast (Option.some.inj hread).symm
  · rintro rfl
    cbv

/-- A power is a name, a multiplication or a call. -/
theorem renderPower_glm (hk : 0 < k) : Monomial.renderPower glm n (k : ℚ) =
    if k = 1 then glmName n else if k = 2 then spaced "*" (glmName n) (glmName n)
    else "pow(" ++ glmName n ++ ", " ++ number (k : ℚ) ++ ")" := by
  have hconstant : glm.constant (k : ℚ) = number (k : ℚ) := glm_constant_of_nonneg (by exact_mod_cast hk.le)
  unfold Monomial.renderPower
  show (if Scalar.nearOne (k : ℚ) then glmName n else glmPower (glmName n) (glm.constant (k : ℚ))) = _
  simp only [Rational.nearOne_iff, Int.cast_eq_one, hconstant, glmPower, number_eq_two hk]

/-- Terms and sums are rows of factors and of terms to C++, if no square is divided by. -/
theorem glm_reading : Style.glm.Reading (· ≠ -2)
    (fun t => Factors (Means .operand) Denominator (Cpp.words t.toList)) (fun t => Denominator (Cpp.words t.toList))
    (fun t => Terms (Means .operand) Denominator (Cpp.words t.toList)) where
  number h hv := by
    rw [glm_constant_of_nonneg hv]
    exact .single (means_number h hv)
  sign hv := by
    rw [glm_constant_of_neg hv, glm_constant_of_nonneg (by linarith), number_of_neg hv]
    rfl
  power {n k} hn hk hpos := by
    rw [renderPower_glm hpos]
    split
    · rename_i hone
      simpa [hone] using Factors.single (means_name hn)
    · split
      · rename_i htwo
        have hsquare : (fun ρ : Assignment => ρ.1 n ^ k) = (fun ρ : Assignment => ρ.1 n) * fun ρ => ρ.1 n := by
          funext ρ
          rw [htwo]
          exact zpow_two _
        rw [cpp_words_spaced (c := '*') rfl rfl, hsquare]
        exact .times (.single (means_name hn)) (means_name hn)
      · exact .single (means_pow hn hpos)
  divisor {n k} hn hk hpos := by
    refine ⟨?_, fun ρ => zpow_ne_zero k (ρ.2 n)⟩
    rw [renderPower_glm hpos]
    split
    · rename_i hone
      simpa [hone] using means_name hn
    · have htwo : k ≠ 2 := fun h => hk (by rw [h])
      rw [if_neg htwo]
      exact means_pow hn hpos
  times {t u _ _} ht hu := by
    show Factors _ _ (Cpp.words (spaced "*" t u).toList) _
    rw [cpp_words_spaced (c := '*') rfl rfl]
    exact ht.mul hu
  divide {t u _ _} ht hu := by
    show Factors _ _ (Cpp.words (spaced "/" t u).toList) _
    rw [cpp_words_spaced (c := '/') rfl rfl]
    exact ht.divided hu
  parenthesis h := .single (means_parenthesis h)
  term h := .single h
  negate {t _} h := by
    show Terms _ _ (Cpp.words ("-" ++ t).toList) _
    rw [cpp_words_negate_factors h]
    exact .negated h
  plus {t u _ _} ht hu := by
    show Terms _ _ (Cpp.words (spaced "+" t u).toList) _
    rw [cpp_words_spaced (c := '+') rfl rfl]
    exact ht.plus hu
  minus {t u _ _} ht hu := by
    show Terms _ _ (Cpp.words (spaced "-" t u).toList) _
    rw [cpp_words_spaced (c := '-') rfl rfl]
    exact ht.minus hu

end Style

/-! ## Whole expressions -/

namespace Expr

open Cpp (Means Denominator member)
open Style (glmName spaced)

variable {ρ : String → ℚ}

/-- C++ reads what is written for GLM as the value of the expression, if no square is divided by. -/
theorem render_glm_readsAs {e : Expr ℚ} (he : Writable (· ≠ -2) e) (hρ : ∀ n, ρ n ≠ 0) :
    ReadsAs (member ρ) (e.render .glm) (e.eval ρ) :=
  Cpp.readsAs_of_terms (Style.glm_reading.render he) ⟨ρ, hρ⟩

theorem render_glm_readsAs_difference :
    let e : Expr ℚ := .sum [.var ⟨"t", 2, 3⟩, .product [.const (-1 / 2), .sum [.var ⟨"pos_x", 1, 2⟩, .var ⟨"y", -1, -1⟩]]]
    e.render .glm = "2 * pow(t, 3) - 0.5 * (pos.x * pos.x - 1 / y)" ∧ e.eval (fun _ => 2) = 57 / 4 ∧
      ReadsAs (member fun _ => 2) (e.render .glm) (e.eval fun _ => 2) := by
  have two : Rational.IsDecimal 2 := ⟨2, 0, by norm_num⟩
  have half : Rational.IsDecimal (-1 / 2) := ⟨-5, 1, by norm_num⟩
  have one : Rational.IsDecimal 1 := ⟨1, 0, by norm_num⟩
  have t : Writable (· ≠ -2) (.var ⟨"t", 2, 3⟩) :=
    .var ⟨'t', [], rfl, by decide, by simp⟩ two (k := 3) (by norm_num) (by decide)
  have pos_x : Writable (· ≠ -2) (.var ⟨"pos_x", 1, 2⟩) :=
    .var ⟨'p', ['o', 's', '_', 'x'], rfl, by decide, List.all_eq_true.mp rfl⟩ one (k := 2) (by norm_num) (by decide)
  have y : Writable (· ≠ -2) (.var ⟨"y", -1, -1⟩) :=
    .var ⟨'y', [], rfl, by decide, by simp⟩ one.neg (k := -1) (by norm_num) (by decide)
  have difference : Writable (· ≠ -2) (.sum [.var ⟨"pos_x", 1, 2⟩, .var ⟨"y", -1, -1⟩]) := .sum (by simp) (by simp [pos_x, y])
  have product : Writable (· ≠ -2) (.product [.const (-1 / 2), .sum [.var ⟨"pos_x", 1, 2⟩, .var ⟨"y", -1, -1⟩]]) :=
    .product (by simp) (by simp [Writable.const half, difference])
  exact ⟨by cbv, by cbv, render_glm_readsAs (.sum (by simp) (by simp [t, product])) fun _ => two_ne_zero⟩

/-- A square that is divided by is read as a division and a multiplication, which leaves the quantity. -/
theorem render_glm_square_divisor {n : String} {q : ℚ} (hn : IsIdentifier n) (hq : Rational.IsDecimal q) (hρ : ∀ n, ρ n ≠ 0) :
    ReadsAs (member ρ) ((Expr.var ⟨n, q, -2⟩).render .glm) q := by
  have hrow {p : ℚ} (hp : Rational.IsDecimal p) : Factors (Means .operand) Denominator
      (Cpp.words (spaced "/" (Style.glm.constant p) (spaced "*" (glmName n) (glmName n))).toList) (fun _ => p) := by
    have hvalue : (fun _ => p : Meaning) = (fun _ => p) / (fun ρ => ρ.1 n) * fun ρ => ρ.1 n := by
      funext ρ
      exact (div_mul_cancel₀ p (ρ.2 n)).symm
    rw [Style.cpp_words_spaced (c := '/') rfl rfl, Style.cpp_words_spaced (c := '*') rfl rfl, ← List.cons_append,
      ← List.append_assoc, hvalue]
    exact .times (.divided (Style.glm_reading.constant hp) ⟨Style.means_name hn, fun ρ => ρ.2 n⟩) (Style.means_name hn)
  have hrender : (Expr.var ⟨n, q, -2⟩).render .glm = if q = -1 then
      "(" ++ ("-" ++ spaced "/" (Style.glm.constant (1 : ℚ)) (spaced "*" (glmName n) (glmName n))) ++ ")"
      else spaced "/" (Style.glm.constant q) (spaced "*" (glmName n) (glmName n)) := by
    have hsquare : Monomial.renderPower Style.glm n ((2 : ℤ) : ℚ) = spaced "*" (glmName n) (glmName n) := by
      rw [Style.renderPower_glm two_pos]
      rfl
    rw [Expr.render, Expr.renderNested, Monomial.render_of_neg (k := 2) _ (by norm_num) two_pos, hsquare]
    rfl
  have hterm : Factors (Means .operand) Denominator (Cpp.words ((Expr.var ⟨n, q, -2⟩).render .glm).toList) (fun _ => q) := by
    rw [hrender]
    split
    · rename_i hminus
      have hone := hrow (p := 1) ⟨1, 0, by norm_num⟩
      have hvalue : (fun _ => q : Meaning) = -fun _ => 1 := by
        funext ρ
        exact hminus
      rw [hvalue]
      exact .single (Style.means_parenthesis (Style.glm_reading.negate hone))
    · exact hrow hq
  exact Cpp.readsAs_of_terms (.single hterm) ⟨ρ, hρ⟩

/-- One over the square of two is read as one. -/
theorem render_glm_readsAs_not_value :
    let e : Expr ℚ := .var ⟨"x", 1, -2⟩
    Writable (fun _ => True) e ∧ e.render .glm = "1 / x * x" ∧ e.eval (fun _ => 2) = 1 / 4 ∧
      ReadsAs (member fun _ => 2) (e.render .glm) 1 ∧ ¬ ReadsAs (member fun _ => 2) (e.render .glm) (e.eval fun _ => 2) := by
  intro e
  have one : Rational.IsDecimal 1 := ⟨1, 0, by norm_num⟩
  have x : IsIdentifier "x" := ⟨'x', [], rfl, by decide, by simp⟩
  have hvalue : e.eval (fun _ => 2) = 1 / 4 := by cbv
  have hread : ReadsAs (member fun _ => 2) (e.render .glm) 1 := render_glm_square_divisor x one fun _ => two_ne_zero
  refine ⟨.var x one (k := -2) (by norm_num) trivial, by cbv, hvalue, hread, fun h => ?_⟩
  have hsame := h.1.unique hread.1
  rw [hvalue] at hsame
  norm_num at hsame

end Expr

end SymbolicAlgebra
