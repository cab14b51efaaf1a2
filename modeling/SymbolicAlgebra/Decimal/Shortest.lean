/-
  SymbolicAlgebra.Decimal.Shortest — the shortest decimal that stands for a binary number.

  A binary number of limited precision is the nearest one to a whole interval of reals
  (`Rounding`). Among the decimals of that interval, `Rounding.shortest` takes one with the
  fewest digits, of those the one nearest to the number, and of two at the same distance
  the greater.

  All comparisons are between natural numbers. On the grid of the multiples of a power of
  ten only the number's two neighbours have to be looked at: if some point of the grid lies
  in the interval, so does one of them.
-/

import SymbolicAlgebra.Decimal

namespace SymbolicAlgebra

/-- The positive number `mantissa * 2 ^ exponent` and the reals that round to it. The
    interval reaches half a unit up, and half a unit down, or a quarter of one when the
    number below is nearer (`closeBelow`). Its ends belong to it iff the mantissa is even. -/
structure Rounding where
  mantissa : Nat
  exponent : Int
  closeBelow : Bool
  deriving Repr, DecidableEq

namespace Rounding

/-- Four times the number is `scaled / denominator`, and a unit of the mantissa is
    `4 * unit / denominator`. -/
def unit (r : Rounding) : Nat := Nat.pow 2 r.exponent.toNat

def denominator (r : Rounding) : Nat := Nat.pow 2 (-r.exponent).toNat

def scaled (r : Rounding) : Nat := 4 * r.mantissa * r.unit

/-- Four times the lower end of the interval, over `denominator`. -/
def low (r : Rounding) : Nat := r.scaled - (if r.closeBelow then 1 else 2) * r.unit

/-- Four times the upper end of the interval, over `denominator`. -/
def high (r : Rounding) : Nat := r.scaled + 2 * r.unit

/-- Compares four times the decimal with `n / denominator`. -/
def compareWith (r : Rounding) (d : Decimal) (n : Nat) : Ordering :=
  compare (4 * d.digits * Nat.pow 10 d.exponent.toNat * r.denominator) (n * Nat.pow 10 (-d.exponent).toNat)

/-- The decimal rounds to the number. -/
def contains (r : Rounding) (d : Decimal) : Bool :=
  let below := r.compareWith d r.low
  let above := r.compareWith d r.high
  if r.mantissa % 2 = 0 then below != .lt && above != .gt else below == .gt && above == .lt

/-- The exponent of the leading digit: the `p` with `10 ^ p ≤ number < 10 ^ (p + 1)`. -/
def leading (r : Rounding) : Int :=
  let n := r.mantissa * r.unit
  let d := r.denominator
  if d ≤ n then
    (Decimal.digitCount (n / d) : Int) - 1
  else
    let k := Decimal.digitCount (d / n)
    if d = n * Nat.pow 10 (k - 1) then 1 - (k : Int) else -(k : Int)

/-- The greatest multiple of `10 ^ e` that is not above the number. -/
def below (r : Rounding) (e : Int) : Decimal :=
  ⟨r.mantissa * r.unit * Nat.pow 10 (-e).toNat / (r.denominator * Nat.pow 10 e.toNat), e⟩

/-- The neighbour above is at least as near as the neighbour below. -/
def prefersAbove (r : Rounding) (d : Decimal) : Bool :=
  r.compareWith ⟨2 * d.digits + 1, d.exponent⟩ (2 * r.scaled) != .gt

/-- The decimal to take on the grid of the multiples of `10 ^ e`, if one is in the interval. -/
def onGrid? (r : Rounding) (e : Int) : Option Decimal :=
  let d := r.below e
  let u : Decimal := ⟨d.digits + 1, e⟩
  match r.contains d, r.contains u with
  | true, true => some (if r.prefersAbove d then u else d)
  | true, false => some d
  | false, true => some u
  | false, false => none

/-- Tries the grids from `e` downwards, each ten times finer than the one before. -/
def searchDown (r : Rounding) : Nat → Int → Decimal
  | 0, e => r.below e
  | grids + 1, e => (r.onGrid? e).getD (r.searchDown grids (e - 1))

/-- The shortest decimal of the interval. Seventeen digits are enough for a mantissa of 53
    bits. -/
def shortest (r : Rounding) : Decimal := (r.searchDown 17 r.leading).trim

end Rounding

end SymbolicAlgebra
