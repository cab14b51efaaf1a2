/-
  SymbolicAlgebra.Decimal — decimal fractions `digits * 10 ^ exponent` and their
  positional notation.

  `Decimal.text` writes every digit in its place: no exponent mark, a point only when
  there is a fraction, and one digit before the point.
-/

namespace SymbolicAlgebra

/-- The decimal fraction `digits * 10 ^ exponent`. -/
structure Decimal where
  digits : Nat
  exponent : Int
  deriving Repr, DecidableEq

namespace Decimal

/-- The number of decimal digits, `1` for zero. -/
def digitCount (n : Nat) : Nat := (Nat.toDigits 10 n).length

/-- Moves the trailing zeros of `digits` into `exponent`; at most `fuel` of them. -/
def trimWithin : Nat → Decimal → Decimal
  | 0, d => d
  | fuel + 1, d =>
    if d.digits != 0 && d.digits % 10 == 0 then trimWithin fuel ⟨d.digits / 10, d.exponent + 1⟩ else d

/-- The same fraction with no trailing zero among its digits. -/
def trim (d : Decimal) : Decimal := trimWithin (digitCount d.digits) d

/-- The digits in their places: `12 * 10 ^ 2` is `1200`, `12 * 10 ^ (-1)` is `1.2` and
    `12 * 10 ^ (-3)` is `0.012`. -/
def chars (d : Decimal) : List Char :=
  let ds := Nat.toDigits 10 d.digits
  if 0 ≤ d.exponent then
    ds ++ List.replicate d.exponent.toNat '0'
  else
    let places := (-d.exponent).toNat
    if places < ds.length then
      ds.take (ds.length - places) ++ '.' :: ds.drop (ds.length - places)
    else
      '0' :: '.' :: (List.replicate (places - ds.length) '0' ++ ds)

/-- The positional notation as text. -/
def text (d : Decimal) : String := String.ofList d.chars

end Decimal

end SymbolicAlgebra
