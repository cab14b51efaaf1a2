/-
  SymbolicAlgebra.Proofs.Tolerance — monomials that do not depend on their name.

  A monomial whose quantity or exponent is as good as zero is really a constant, and a product that
  holds one counts as zero. The numbers here are exact, with a tolerance: two of them are as good as
  equal when they are less than `2 ^ -23` apart.

  Where no monomial of the operands is really a constant, none of their sum, difference and product
  is, and none of a negation (`arithmetic_genuine`). A quotient has no exponent as good as zero
  either, but a product divided by a monomial appends the reciprocal as it is, and that may have a
  quantity as good as zero (`div_appends_constant`). This is the only way for one to arise.
-/

import SymbolicAlgebra.Proofs.Everywhere
import SymbolicAlgebra.Proofs.Rational

namespace SymbolicAlgebra

/-- A fraction, as good as any other that is less than `2 ^ -23` away. -/
structure Tolerant where
  value : ℚ

instance : Scalar Tolerant where
  zero := ⟨0⟩
  one := ⟨1⟩
  add v w := ⟨v.value + w.value⟩
  mul v w := ⟨v.value * w.value⟩
  neg v := ⟨-v.value⟩
  div v w := ⟨v.value / w.value⟩
  beq v w := v.value == w.value
  near v w := decide (|v.value - w.value| < 1 / 2 ^ 23)
  isNegative v := Scalar.isNegative v.value
  round v := ⟨Rational.round v.value⟩
  magnitude v := Scalar.magnitude v.value
  text v := Rational.text v.value
  ofText? s := (Rational.ofText? s).map Tolerant.mk

namespace Tolerant

theorem nearZero_eq (v : Tolerant) : Scalar.nearZero v = decide (|v.value| < 1 / 2 ^ 23) := by
  show decide (|v.value - 0| < 1 / 2 ^ 23) = _
  rw [sub_zero]

theorem nearZero_neg (v : Tolerant) : Scalar.nearZero (-v) = Scalar.nearZero v := by
  rw [nearZero_eq, nearZero_eq]
  show decide (|-v.value| < 1 / 2 ^ 23) = _
  rw [abs_neg]

theorem nearZero_one : Scalar.nearZero (1 : Tolerant) = false := by
  rw [nearZero_eq]
  show decide (|(1 : ℚ)| < 1 / 2 ^ 23) = false
  norm_num

end Tolerant

namespace Expr

variable {α : Type} [Scalar α]

/-- Every monomial of the tree depends on its name. -/
def Genuine (e : Expr α) : Prop := ∀ m, Occurs (.var m) e → m.isConstant = false

/-- No exponent is as good as zero, and no quantity except that of some of the names. -/
def powersBut (N : String → Prop) : Condition α :=
  ⟨fun m => Scalar.nearZero m.exponent = false ∧ (Scalar.nearZero m.quantity = true → N m.name), fun _ _ _ => True⟩

theorem genuine_iff {e : Expr α} : Genuine e ↔ Everywhere (powersBut fun _ => False) e := by
  simp [Genuine, powersBut, Everywhere.iff_occurs, Monomial.isConstant]

theorem Genuine.everywhere {e : Expr α} (h : Genuine e) (N : String → Prop) : Everywhere (powersBut N) e := by
  refine Everywhere.iff_occurs.mpr ⟨fun m ho => ?_, fun _ _ => trivial⟩
  obtain ⟨he, hq⟩ := Bool.or_eq_false_iff.mp (h m ho)
  exact ⟨he, fun hz => absurd (hq.symm.trans hz) Bool.false_ne_true⟩

/-- A new monomial has a new quantity that is not as good as zero, or an old one with another sign, or
    the quantity `1`. -/
theorem powersBut_kept (hneg : ∀ v : α, Scalar.nearZero (-v) = Scalar.nearZero v)
    (hone : Scalar.nearZero (1 : α) = false) (N : String → Prop) : (powersBut (α := α) N).Kept where
  neg hm := ⟨hm.1, fun hq => hm.2 ((hneg _).symm.trans hq)⟩
  bare hm := ⟨hm.1, fun hq => absurd (hone.symm.trans hq) Bool.false_ne_true⟩
  quantity hq hm := ⟨hm.1, fun hz => absurd (hq.symm.trans hz) Bool.false_ne_true⟩
  power hq he _ _ _ := ⟨he, fun hz => absurd (hq.symm.trans hz) Bool.false_ne_true⟩
  zip _ _ := trivial
  mul _ _ := trivial

/-- The quotient has no exponent as good as zero, and a quantity as good as zero only for a name that has
    too large a quantity in the divisor. -/
theorem Genuine.div (hneg : ∀ v : α, Scalar.nearZero (-v) = Scalar.nearZero v)
    (hone : Scalar.nearZero (1 : α) = false) {a b c : Expr α} (ha : Genuine a) (hb : Genuine b) (h : a.div b = .ok c) :
    Everywhere (powersBut fun name => ∃ n, Occurs (.var n) b ∧ n.name = name ∧ Scalar.nearZero (1 / n.quantity) = true)
      c := by
  have hdivisor : Everywhere ⟨fun n => Occurs (.var n) b, fun _ _ _ => True⟩ b :=
    Everywhere.iff_occurs.mpr ⟨fun _ ho => ho, fun _ _ => trivial⟩
  refine Everywhere.div (powersBut_kept hneg hone _) (fun n _ ho => ⟨?_, fun hq => ⟨n, ho, rfl, hq⟩⟩) h
    (ha.everywhere _) hdivisor
  exact (hneg _).trans (Bool.or_eq_false_iff.mp (hb n ho)).1

/-- Where every monomial of `a` and of `b` depends on its name, so does every monomial of their sum, difference
    and product, and of the negation of `a`. In a quotient every exponent does its part, but the quantity of a
    monomial may be as good as zero, if the divisor has a monomial of that name with too large a quantity. -/
theorem arithmetic_genuine {a b : Expr Tolerant} (ha : Genuine a) (hb : Genuine b) :
    Genuine a.neg ∧ (∀ c, a.add b = .ok c → Genuine c) ∧ (∀ c, a.sub b = .ok c → Genuine c) ∧
    (∀ c, a.mul b = .ok c → Genuine c) ∧
    ∀ c, a.div b = .ok c → ∀ m, Occurs (.var m) c → Scalar.nearZero m.exponent = false ∧
      (Scalar.nearZero m.quantity = true →
        ∃ n, Occurs (.var n) b ∧ n.name = m.name ∧ Scalar.nearZero (1 / n.quantity) = true) := by
  have hkept := powersBut_kept Tolerant.nearZero_neg Tolerant.nearZero_one fun _ => False
  have hae := genuine_iff.mp ha
  have hbe := genuine_iff.mp hb
  refine ⟨?_, fun c h => ?_, fun c h => ?_, fun c h => ?_, fun c h m ho => ?_⟩
  · exact genuine_iff.mpr (hae.neg hkept)
  · exact genuine_iff.mpr (Everywhere.add hkept h hae hbe)
  · exact genuine_iff.mpr (Everywhere.sub hkept h hae hbe)
  · exact genuine_iff.mpr (Everywhere.mul hkept h hae hbe)
  · have hc := ha.div Tolerant.nearZero_neg Tolerant.nearZero_one hb h
    exact (Everywhere.iff_occurs.mp hc).1 m ho

/-! ## A reciprocal that is appended as it is -/

/-- The product of `x` and `z`. -/
def area : Expr Tolerant := .product [.var ⟨"x", 1, 1⟩, .var ⟨"z", 1, 1⟩]

/-- A large multiple of `y`. -/
def large : Expr Tolerant := .var ⟨"y", ⟨2 ^ 24⟩, 1⟩

/-- One over that. -/
def inverse : Monomial Tolerant := ⟨"y", ⟨1 / 2 ^ 24⟩, ⟨-1⟩⟩

theorem genuine_area : Genuine area := by simp [Genuine, area, Monomial.isConstant, Tolerant.nearZero_one]

theorem genuine_large : Genuine large := by
  have hquantity : Scalar.nearZero (⟨2 ^ 24⟩ : Tolerant) = false := by cbv
  simp [Genuine, large, Monomial.isConstant, Tolerant.nearZero_one, hquantity]

theorem div_area_large : area.div large = .ok (.product [.var ⟨"x", 1, 1⟩, .var ⟨"z", 1, 1⟩, .var inverse]) := by cbv

theorem arithmetic_genuine_area : Genuine area.neg ∧ Scalar.nearZero inverse.exponent = false ∧
    ∃ n, Occurs (.var n) large ∧ n.name = "y" ∧ Scalar.nearZero (1 / n.quantity) = true := by
  obtain ⟨hneg, -, -, -, hdiv⟩ := arithmetic_genuine genuine_area genuine_large
  obtain ⟨hexponent, hquantity⟩ := hdiv _ div_area_large inverse (by simp)
  exact ⟨hneg, hexponent, hquantity (by cbv)⟩

/-- The reciprocal does not turn into a number, though its quantity is as good as zero. -/
theorem div_appends_constant : ¬ ∀ a b c : Expr Tolerant, Genuine a → Genuine b → a.div b = .ok c → Genuine c := by
  intro h
  have hconstant : inverse.isConstant = true := by cbv
  have hgenuine := h area large _ genuine_area genuine_large div_area_large inverse (by simp)
  rw [hconstant] at hgenuine
  cases hgenuine

end Expr

end SymbolicAlgebra
