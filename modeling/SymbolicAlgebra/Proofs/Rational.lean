/-
  SymbolicAlgebra.Proofs.Rational — exact fractions as scalars.

  Over the rational numbers every test means what it says: two numbers are as good as equal when
  they are equal. This is the reading of the library under which its shortcuts can be compared
  with the rules of algebra.
-/

import Mathlib
import SymbolicAlgebra.Decimal.Numeral
import SymbolicAlgebra.Scalar

namespace SymbolicAlgebra

namespace Rational

/-- The nearest integer, a half going away from zero. -/
def round (v : ℚ) : ℚ := if 0 ≤ v then ⌊v + 1 / 2⌋ else ⌈v - 1 / 2⌉

/-- How many places after the point a fraction with the given denominator takes, if it ends. -/
def places? (denominator : Nat) : Option Nat :=
  (List.range (denominator.log2 + 1)).find? fun k => 10 ^ k % denominator == 0

/-- All the digits, or a fraction of integers where they do not end. -/
def text (v : ℚ) : String :=
  let body := match places? v.den with
    | some k => (Decimal.mk (v.num.natAbs * (10 ^ k / v.den)) (-k)).text
    | none => toString v.num.natAbs ++ "/" ++ toString v.den
  if v < 0 then "-" ++ body else body

def ofDecimal (d : Decimal) : ℚ :=
  if 0 ≤ d.exponent then d.digits * 10 ^ d.exponent.toNat else d.digits / 10 ^ (-d.exponent).toNat

/-- Reads any numeral that stands for a number. -/
def ofText? (s : String) : Option ℚ :=
  match Numeral.ofText? s with
  | some (.finite negative d) => some (if negative then -ofDecimal d else ofDecimal d)
  | _ => none

end Rational

instance : Scalar ℚ where
  near a b := decide (a = b)
  isNegative v := decide (v < 0)
  round := Rational.round
  magnitude v := ⌊|v|⌋.toNat
  text := Rational.text
  ofText? := Rational.ofText?

namespace Rational

@[simp] theorem near_iff {v w : ℚ} : Scalar.near v w = true ↔ v = w := decide_eq_true_iff

@[simp] theorem nearZero_iff {v : ℚ} : Scalar.nearZero v = true ↔ v = 0 := near_iff

@[simp] theorem nearOne_iff {v : ℚ} : Scalar.nearOne v = true ↔ v = 1 := near_iff

@[simp] theorem nearMinusOne_iff {v : ℚ} : Scalar.nearMinusOne v = true ↔ v = -1 := near_iff

@[simp] theorem nearZero_eq_false_iff {v : ℚ} : Scalar.nearZero v = false ↔ v ≠ 0 := decide_eq_false_iff_not

@[simp] theorem isNegative_iff {v : ℚ} : Scalar.isNegative v = true ↔ v < 0 := decide_eq_true_iff

@[simp] theorem round_intCast (k : ℤ) : Scalar.round (k : ℚ) = k := by
  show Rational.round k = k
  unfold Rational.round
  split
  · rw [Int.floor_intCast_add]
    norm_num
  · rw [sub_eq_add_neg, Int.ceil_intCast_add]
    norm_num

@[simp] theorem magnitude_intCast (k : ℤ) : Scalar.magnitude (k : ℚ) = k.natAbs := by
  show ⌊|(k : ℚ)|⌋.toNat = k.natAbs
  rw [← Int.cast_abs, Int.floor_intCast, Int.abs_eq_natAbs, Int.toNat_natCast]

end Rational

end SymbolicAlgebra
