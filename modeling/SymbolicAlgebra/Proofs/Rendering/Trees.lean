/-
  SymbolicAlgebra.Proofs.Rendering.Trees — what a written tree means, whatever the style.

  A text is a term or a sum, and means a number for every assignment of numbers to the names. If a
  style keeps to that (`Style.Reading`: a product of terms is a term that means the product, a sum in
  parentheses is a term, and so on), then every tree is written as what it means (`Reading.render`).
  The induction follows the walk over the tree, in which a term that shows a minus is negated first.

  In a language with infix signs a term is operands with signs between them, read from left to right.
  That a product of two terms can be written as the one after the other is a fact about such rows of
  factors (`Factors.mul`).
-/

import SymbolicAlgebra.Proofs.Rendering.Numbers
import SymbolicAlgebra.Expr.Render
import SymbolicAlgebra.Proofs.Evaluation
import SymbolicAlgebra.Proofs.Grammar.ParseTree

namespace SymbolicAlgebra

/-! ## Meanings -/

/-- Numbers other than zero for all names. -/
abbrev Assignment := {ρ : String → ℚ // ∀ n, ρ n ≠ 0}

/-- A number for every assignment. -/
abbrev Meaning := Assignment → ℚ

/-- What a tree without grids means. -/
def Expr.meaning (e : Expr ℚ) : Meaning := fun ρ => e.eval ρ.1

namespace Expr

variable {e : Expr ℚ} {es : List (Expr ℚ)}

@[simp] theorem meaning_sum_nil : (Expr.sum []).meaning = 0 := by
  funext ρ
  simp [meaning]

@[simp] theorem meaning_sum_cons : (Expr.sum (e :: es)).meaning = e.meaning + (Expr.sum es).meaning := by
  funext ρ
  simp [meaning]

@[simp] theorem meaning_product_nil : (Expr.product []).meaning = 1 := by
  funext ρ
  simp [meaning]

@[simp] theorem meaning_product_cons : (Expr.product (e :: es)).meaning = e.meaning * (Expr.product es).meaning := by
  funext ρ
  simp [meaning]

@[simp] theorem meaning_neg : e.neg.meaning = -e.meaning := by
  funext ρ
  simp [meaning]

end Expr

/-! ## Texts of children -/

namespace Expr

variable {α : Type} [Scalar α] (s : Style α)

theorem renderEach_eq_map (nested : Bool) (es : List (Expr α)) : renderEach s nested es = es.map (renderNested s nested) := by
  induction es with
  | nil => rw [renderEach, List.map_nil]
  | cons e es ih => rw [renderEach, List.map_cons, ih]

/-- The cells of a grid are written on their own, whatever stands around the grid. -/
theorem render_matrix (g : Grid (Expr α)) : (Expr.matrix g).render s = s.matrix g.shape (g.cells.map (render s)) := by
  rw [render, renderNested, renderEach_eq_map]
  rfl

end Expr

/-! ## Trees that can be written -/

/-- A letter, then letters and underscores. -/
def IsIdentifier (n : String) : Prop :=
  ∃ c cs, n.toList = c :: cs ∧ Token.isNameStart c = true ∧ ∀ d ∈ cs, Token.isNamePart d = true

/-- A tree without grids and without empty sums and products, whose names are identifiers, whose
    numbers have an end, and whose exponents are whole and among the given ones. -/
inductive Writable (exponent : ℤ → Prop) : Expr ℚ → Prop
  | const {v : ℚ} : Rational.IsDecimal v → Writable exponent (.const v)
  | var {m : Monomial ℚ} {k : ℤ} : IsIdentifier m.name → Rational.IsDecimal m.quantity → m.exponent = k →
      exponent k → Writable exponent (.var m)
  | sum {ts : List (Expr ℚ)} : ts ≠ [] → (∀ t ∈ ts, Writable exponent t) → Writable exponent (.sum ts)
  | product {fs : List (Expr ℚ)} : fs ≠ [] → (∀ f ∈ fs, Writable exponent f) → Writable exponent (.product fs)

namespace Expr

/-- Without a factor to negate there is `-1`. -/
theorem negFactors_ne_nil {α : Type} [Scalar α] (fs : List (Expr α)) : negFactors fs ≠ [] := by
  rcases negFactors_cases fs with ⟨xs, f, ys, rfl, -, hneg⟩ | ⟨-, hneg⟩
  · simp [hneg]
  · simp [hneg]

end Expr

namespace Writable

variable {exponent : ℤ → Prop} {e : Expr ℚ}

theorem flipSign (h : Writable exponent e) : Writable exponent e.flipSign := by
  cases h with
  | const hv => exact .const hv.neg
  | var hn hq hk he => exact .var hn hq.neg hk he
  | sum hne h => exact .sum hne h
  | product hne h => exact .product hne h

theorem neg (h : Writable exponent e) : Writable exponent e.neg := by
  induction h with
  | const hv => exact .const hv.neg
  | var hn hq hk he => exact .var hn hq.neg hk he
  | sum hne _ ih =>
    rw [Expr.neg, Expr.negAll_eq_map]
    exact .sum (by simpa using hne) (List.forall_mem_map.mpr ih)
  | product _ h _ =>
    refine .product (Expr.negFactors_ne_nil _) (Expr.forall_negFactors (fun e he => flipSign he) (.const ?_) h)
    exact ⟨-1, 0, by norm_num⟩

end Writable

/-! ## Monomials -/

namespace Monomial

variable {m : Monomial ℚ} {k : ℤ}

theorem meaning_eq (hm : m.exponent = k) : Expr.meaning (.var m) = fun ρ => m.quantity * ρ.1 m.name ^ k := by
  funext ρ
  rw [Expr.meaning, Expr.eval_var, Monomial.eval, hm, Int.floor_intCast]

theorem render_of_zero (s : Style ℚ) (hm : m.exponent = 0) : m.render s = s.constant m.quantity := by
  unfold render
  rw [if_pos (by simp [hm])]

/-- A positive exponent: a quantity of one is left out, and one of minus one is a sign. -/
theorem render_of_pos (s : Style ℚ) (hm : m.exponent = k) (hk : 0 < k) : m.render s =
    if m.quantity = 1 then renderPower s m.name (k : ℚ)
    else if m.quantity = -1 then s.parenthesis (s.negate (renderPower s m.name (k : ℚ)))
    else s.times (s.constant m.quantity) (renderPower s m.name (k : ℚ)) := by
  have hpos : (0 : ℚ) < k := by exact_mod_cast hk
  unfold render
  rw [hm, if_neg (by simpa using hk.ne'), if_neg (by simpa using hpos.le)]
  simp

/-- A negative exponent is written as a division by the power. -/
theorem render_of_neg (s : Style ℚ) (hm : m.exponent = -k) (hk : 0 < k) : m.render s =
    if m.quantity = -1 then s.parenthesis (s.negate (s.divide (s.constant 1) (renderPower s m.name (k : ℚ))))
    else s.divide (s.constant m.quantity) (renderPower s m.name (k : ℚ)) := by
  have hpos : (0 : ℚ) < k := by exact_mod_cast hk
  unfold render
  rw [hm, if_neg (by simpa using hk.ne'), if_pos (by simpa using hpos), neg_neg]
  simp

end Monomial

/-! ## The walk over a tree -/

namespace Expr

variable {s : Style ℚ} {P : String → Meaning → Prop} {written : String} {v : Meaning} {f : Expr ℚ} {fs ts : List (Expr ℚ)}

/-- Factors are put behind the first one, one after the other. -/
theorem joinFactors_induction (first : P (f.renderNested s true) f.meaning)
    (times : ∀ g ∈ fs, ∀ t v, P t v → P (s.times t (g.renderNested s true)) (v * g.meaning)) :
    P (joinFactors s (renderEach s true (f :: fs))) (Expr.product (f :: fs)).meaning := by
  have hfold (t : String) (v : Meaning) (ht : P t v) :
      P ((renderEach s true fs).foldl s.times t) (v * (Expr.product fs).meaning) := by
    induction fs generalizing t v with
    | nil =>
      rw [renderEach, meaning_product_nil, mul_one]
      exact ht
    | cons g fs ih =>
      obtain ⟨hg, hfs⟩ := List.forall_mem_cons.mp times
      rw [renderEach, List.foldl_cons, meaning_product_cons, ← mul_assoc]
      exact ih hfs _ _ (hg t v ht)
  rw [renderEach, joinFactors, meaning_product_cons]
  exact hfold _ _ first

/-- Further terms, each added or, if it shows a minus, negated and subtracted. -/
theorem renderMore_induction (hw : P written v)
    (plus : ∀ t ∈ ts, t.isNegative = false → ∀ w v, P w v → P (s.plus w (t.renderNested s true)) (v + t.meaning))
    (minus : ∀ t ∈ ts, t.isNegative = true → ∀ w v, P w v → P (s.minus w (t.neg.renderNested s true)) (v - t.neg.meaning)) :
    P (renderMore s written ts) (v + (Expr.sum ts).meaning) := by
  induction ts generalizing written v with
  | nil =>
    rw [renderMore, meaning_sum_nil, add_zero]
    exact hw
  | cons t ts ih =>
    obtain ⟨hplus, plus⟩ := List.forall_mem_cons.mp plus
    obtain ⟨hminus, minus⟩ := List.forall_mem_cons.mp minus
    rw [renderMore, meaning_sum_cons, ← add_assoc]
    split
    · rename_i hn
      have hw' := hminus hn written v hw
      rw [meaning_neg, sub_neg_eq_add] at hw'
      exact ih hw' plus minus
    · rename_i hn
      exact ih (hplus (by simpa using hn) written v hw) plus minus

end Expr

/-- What the pieces of a style mean, when the texts that they are made of are terms and sums. A power
    with a negative exponent is only written as what is divided by. -/
structure Style.Reading (s : Style ℚ) (exponent : ℤ → Prop) (Term Divisor Sum : String → Meaning → Prop) : Prop where
  number {v : ℚ} : Rational.IsDecimal v → 0 ≤ v → Term (s.constant v) fun _ => v
  sign {v : ℚ} : v < 0 → s.constant v = s.parenthesis (s.negate (s.constant (-v)))
  power {n : String} {k : ℤ} : IsIdentifier n → exponent k → 0 < k → Term (Monomial.renderPower s n (k : ℚ)) fun ρ => ρ.1 n ^ k
  divisor {n : String} {k : ℤ} : IsIdentifier n → exponent (-k) → 0 < k →
    Divisor (Monomial.renderPower s n (k : ℚ)) fun ρ => ρ.1 n ^ k
  times {t u : String} {v w : Meaning} : Term t v → Term u w → Term (s.times t u) (v * w)
  divide {t u : String} {v w : Meaning} : Term t v → Divisor u w → Term (s.divide t u) (v / w)
  parenthesis {t : String} {v : Meaning} : Sum t v → Term (s.parenthesis t) v
  term {t : String} {v : Meaning} : Term t v → Sum t v
  negate {t : String} {v : Meaning} : Term t v → Sum (s.negate t) (-v)
  plus {t u : String} {v w : Meaning} : Sum t v → Term u w → Sum (s.plus t u) (v + w)
  minus {t u : String} {v w : Meaning} : Sum t v → Term u w → Sum (s.minus t u) (v - w)

namespace Style.Reading

open SymbolicAlgebra.Expr

variable {s : Style ℚ} {exponent : ℤ → Prop} {Term Divisor Sum : String → Meaning → Prop}

theorem constant (h : s.Reading exponent Term Divisor Sum) {v : ℚ} (hv : Rational.IsDecimal v) :
    Term (s.constant v) fun _ => v := by
  by_cases hneg : v < 0
  · have hvalue : (fun _ => v : Meaning) = -fun _ => -v := by
      funext ρ
      exact (neg_neg v).symm
    rw [h.sign hneg, hvalue]
    exact h.parenthesis (h.negate (h.number hv.neg (by linarith)))
  · exact h.number hv (not_lt.mp hneg)

/-- A monomial is a term, whichever of its parts are left out. -/
theorem monomial (h : s.Reading exponent Term Divisor Sum) {m : Monomial ℚ} {k : ℤ} (hn : IsIdentifier m.name)
    (hq : Rational.IsDecimal m.quantity) (hm : m.exponent = k) (hk : exponent k) :
    Term (m.render s) (Expr.meaning (.var m)) := by
  rw [Monomial.meaning_eq hm]
  rcases lt_trichotomy k 0 with hneg | rfl | hpos
  · obtain ⟨l, rfl⟩ : ∃ l, k = -l := ⟨-k, (neg_neg k).symm⟩
    have hl : 0 < l := by omega
    have hbottom := h.divisor hn hk hl
    rw [Monomial.render_of_neg s (by simpa using hm) hl]
    split
    · rename_i hminus
      have hone : Rational.IsDecimal 1 := ⟨1, 0, by norm_num⟩
      have hvalue : (fun ρ : Assignment => m.quantity * ρ.1 m.name ^ (-l)) = -((fun _ => 1) / fun ρ => ρ.1 m.name ^ l) := by
        funext ρ
        simp [hminus]
      rw [hvalue]
      exact h.parenthesis (h.negate (h.divide (h.constant hone) hbottom))
    · have hvalue : (fun ρ : Assignment => m.quantity * ρ.1 m.name ^ (-l)) = (fun _ => m.quantity) / fun ρ => ρ.1 m.name ^ l := by
        funext ρ
        simp [div_eq_mul_inv]
      rw [hvalue]
      exact h.divide (h.constant hq) hbottom
  · rw [Monomial.render_of_zero s (by simpa using hm)]
    simpa using h.constant hq
  · have hpower := h.power hn hk hpos
    rw [Monomial.render_of_pos s hm hpos]
    split
    · rename_i hone
      simpa [hone] using hpower
    · split
      · rename_i hminus
        have hvalue : (fun ρ : Assignment => m.quantity * ρ.1 m.name ^ k) = -fun ρ => ρ.1 m.name ^ k := by
          funext ρ
          simp [hminus]
        rw [hvalue]
        exact h.parenthesis (h.negate hpower)
      · exact h.times (h.constant hq) hpower

/-- Factors that are terms make a term of their product. -/
theorem joinFactors (h : s.Reading exponent Term Divisor Sum) {fs : List (Expr ℚ)} (hne : fs ≠ [])
    (hfs : ∀ f ∈ fs, Term (f.renderNested s true) f.meaning) :
    Term (Expr.joinFactors s (renderEach s true fs)) (Expr.product fs).meaning := by
  cases fs with
  | nil => exact absurd rfl hne
  | cons f fs =>
    obtain ⟨hf, hfs⟩ := List.forall_mem_cons.mp hfs
    exact joinFactors_induction hf fun g hg t v ht => h.times ht (hfs g hg)

theorem renderTerms (h : s.Reading exponent Term Divisor Sum) {ts : List (Expr ℚ)} (hne : ts ≠ [])
    (hts : ∀ t ∈ ts, Term (t.renderNested s true) t.meaning ∧
      (t.isNegative = true → Term (t.neg.renderNested s true) t.neg.meaning)) :
    Sum (Expr.renderTerms s ts) (Expr.sum ts).meaning := by
  cases ts with
  | nil => exact absurd rfl hne
  | cons t ts =>
    obtain ⟨⟨ht, -⟩, hts⟩ := List.forall_mem_cons.mp hts
    rw [Expr.renderTerms, meaning_sum_cons]
    exact renderMore_induction (h.term ht) (fun u hu _ w v hw => h.plus hw (hts u hu).1)
      fun u hu hneg w v hw => h.minus hw ((hts u hu).2 hneg)

/-- Every tree is written as a term inside a product or a sum, and as a sum anywhere. -/
theorem renderNested (h : s.Reading exponent Term Divisor Sum) {e : Expr ℚ} (he : Writable exponent e) :
    Term (e.renderNested s true) e.meaning ∧ Sum (e.renderNested s false) e.meaning := by
  -- by size, since what is written in the place of a term may be the negated term
  suffices ∀ n, ∀ e : Expr ℚ, e.size < n → Writable exponent e →
      Term (e.renderNested s true) e.meaning ∧ Sum (e.renderNested s false) e.meaning from
    this _ e (Nat.lt_succ_self _) he
  intro n
  induction n with
  | zero => intro e hn; omega
  | succ n ih =>
    intro e hn he
    cases he with
    | const hv =>
      rw [Expr.renderNested, Expr.renderNested]
      have hterm := h.constant hv
      exact ⟨hterm, h.term hterm⟩
    | var hname hq hm hk =>
      rw [Expr.renderNested, Expr.renderNested]
      have hterm := h.monomial hname hq hm hk
      exact ⟨hterm, h.term hterm⟩
    | @sum ts hne hts =>
      have hsum := h.renderTerms hne fun t ht => by
        have hsize := size_term_lt ht
        refine ⟨(ih t (by omega) (hts t ht)).1, fun hneg => (ih t.neg ?_ (hts t ht).neg).1⟩
        rw [size_neg_of_isNegative hneg]
        omega
      rw [Expr.renderNested, Expr.renderNested]
      exact ⟨h.parenthesis hsum, hsum⟩
    | @product fs hne hfs =>
      have hterm := h.joinFactors hne fun f hf => by
        have hsize := size_factor_lt hf
        exact (ih f (by omega) (hfs f hf)).1
      rw [Expr.renderNested, Expr.renderNested]
      exact ⟨hterm, h.term hterm⟩

theorem render (h : s.Reading exponent Term Divisor Sum) {e : Expr ℚ} (he : Writable exponent e) :
    Sum (e.render s) e.meaning := (h.renderNested he).2

end Style.Reading

/-! ## Rows of factors and of terms -/

/-- Words that are operands with signs between them, and what they mean when they are read from left to
    right; a divisor is never zero. -/
inductive Factors (Operand Divisor : List Word → Meaning → Prop) : List Word → Meaning → Prop
  | single {ws : List Word} {v : Meaning} : Operand ws v → Factors Operand Divisor ws v
  | times {ws us : List Word} {v w : Meaning} : Factors Operand Divisor ws v → Operand us w →
      Factors Operand Divisor (ws ++ .sign .mul :: us) (v * w)
  | divided {ws us : List Word} {v w : Meaning} : Factors Operand Divisor ws v → Divisor us w →
      Factors Operand Divisor (ws ++ .sign .div :: us) (v / w)

/-- Words that are terms with signs between them, the first of which can be negated. -/
inductive Terms (Operand Divisor : List Word → Meaning → Prop) : List Word → Meaning → Prop
  | single {ws : List Word} {v : Meaning} : Factors Operand Divisor ws v → Terms Operand Divisor ws v
  | negated {ws : List Word} {v : Meaning} : Factors Operand Divisor ws v → Terms Operand Divisor (.sign .sub :: ws) (-v)
  | plus {ws us : List Word} {v w : Meaning} : Terms Operand Divisor ws v → Factors Operand Divisor us w →
      Terms Operand Divisor (ws ++ .sign .add :: us) (v + w)
  | minus {ws us : List Word} {v w : Meaning} : Terms Operand Divisor ws v → Factors Operand Divisor us w →
      Terms Operand Divisor (ws ++ .sign .sub :: us) (v - w)

/-- One row of factors times another: the divisors of the second stay at their place. -/
theorem Factors.mul {Operand Divisor : List Word → Meaning → Prop} {ws us : List Word} {v w : Meaning}
    (h : Factors Operand Divisor ws v) (h' : Factors Operand Divisor us w) :
    Factors Operand Divisor (ws ++ .sign .mul :: us) (v * w) := by
  induction h' with
  | single hf => exact .times h hf
  | times _ hf ih =>
    rw [← mul_assoc]
    simpa using Factors.times ih hf
  | divided _ hd ih =>
    rw [← mul_div_assoc]
    simpa using Factors.divided ih hd

/-- A language in which minus binds tightest, then multiplication and division, then addition and
    subtraction, all of them grouping to the left. -/
structure Precedence (Operand Divisor Term Sum : List Word → Meaning → Prop) : Prop where
  operand {ws : List Word} {v : Meaning} : Operand ws v → Term ws v
  negated {ws : List Word} {v : Meaning} : Operand ws v → Term (.sign .sub :: ws) (-v)
  times {ws us : List Word} {v w : Meaning} : Term ws v → Operand us w → Term (ws ++ .sign .mul :: us) (v * w)
  divided {ws us : List Word} {v w : Meaning} : Term ws v → Divisor us w → Term (ws ++ .sign .div :: us) (v / w)
  term {ws : List Word} {v : Meaning} : Term ws v → Sum ws v
  plus {ws us : List Word} {v w : Meaning} : Sum ws v → Term us w → Sum (ws ++ .sign .add :: us) (v + w)
  minus {ws us : List Word} {v w : Meaning} : Sum ws v → Term us w → Sum (ws ++ .sign .sub :: us) (v - w)

namespace Precedence

variable {Operand Divisor Term Sum : List Word → Meaning → Prop} {ws : List Word} {v : Meaning}

theorem of_factors (h : Precedence Operand Divisor Term Sum) (hf : Factors Operand Divisor ws v) : Term ws v := by
  induction hf with
  | single ho => exact h.operand ho
  | times _ ho ih => exact h.times ih ho
  | divided _ hd ih => exact h.divided ih hd

/-- A minus before a row of factors belongs to the first of them, which makes no difference. -/
theorem of_negated (h : Precedence Operand Divisor Term Sum) (hf : Factors Operand Divisor ws v) :
    Term (.sign .sub :: ws) (-v) := by
  induction hf with
  | single ho => exact h.negated ho
  | times _ ho ih =>
    rw [← neg_mul]
    exact h.times ih ho
  | divided _ hd ih =>
    rw [← neg_div]
    exact h.divided ih hd

theorem of_terms (h : Precedence Operand Divisor Term Sum) (ht : Terms Operand Divisor ws v) : Sum ws v := by
  induction ht with
  | single hf => exact h.term (h.of_factors hf)
  | negated hf => exact h.term (h.of_negated hf)
  | plus _ hf ih => exact h.plus ih (h.of_factors hf)
  | minus _ hf ih => exact h.minus ih (h.of_factors hf)

end Precedence

end SymbolicAlgebra
