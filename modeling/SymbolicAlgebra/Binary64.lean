/-
  SymbolicAlgebra.Binary64 — double-precision binary numbers as scalars.

  Numbers are read by rounding to the nearest double and written with the fewest digits
  that read back (`Rounding.shortest`), always positionally. Two numbers are as good as
  equal when they differ by less than the single-precision unit `2 ^ (-23)`; nothing is as
  good as equal to a value that is not a number.
-/

import SymbolicAlgebra.Scalar
import SymbolicAlgebra.Decimal.Shortest
import SymbolicAlgebra.Decimal.Numeral

namespace SymbolicAlgebra.Binary64

/-- Differences below this count as none: `2 ^ (-23)`. -/
def tolerance : Float := 1.1920928955078125e-7

/-- The exponent field of the encoding. -/
def exponentField (v : Float) : Nat := (v.toBits >>> 52).toNat % 2048

/-- The fraction field of the encoding. -/
def fractionField (v : Float) : Nat := v.toBits.toNat % Nat.pow 2 52

/-- The sign bit of the encoding. -/
def signBit (v : Float) : Bool := v.toBits >>> 63 == 1

/-- The absolute value of a finite number, with the reals that round to it. Numbers of the
    least exponent have no leading one; below a power of two the numbers lie closer. -/
def rounding (v : Float) : Rounding :=
  let e := exponentField v
  let f := fractionField v
  if e = 0 then ⟨f, -1074, false⟩ else ⟨Nat.pow 2 52 + f, (e : Int) - 1075, f == 0 && e != 1⟩

/-- The shortest positional notation; zero keeps its sign. -/
def text (v : Float) : String :=
  if v.isNaN then "NaN"
  else
    let body := if v.isInf then "inf" else if v == 0 then "0" else (rounding v).shortest.text
    if signBit v then "-" ++ body else body

/-- The double nearest to a decimal fraction. Fractions far outside the range are told by
    their leading digit alone. -/
def ofDecimal (d : Decimal) : Float :=
  let leading := (Decimal.digitCount d.digits : Int) + d.exponent
  if d.digits = 0 ∨ leading < -400 then 0.0
  else if 400 < leading then 1.0 / 0.0
  else if 0 ≤ d.exponent then Float.ofScientific d.digits false d.exponent.toNat
  else Float.ofScientific d.digits true (-d.exponent).toNat

/-- The double that a numeral stands for. -/
def ofNumeral : Numeral → Float
  | .finite negative d => if negative then -ofDecimal d else ofDecimal d
  | .infinite negative => if negative then -(1.0 / 0.0) else 1.0 / 0.0
  | .notANumber => 0.0 / 0.0

/-- Reads any numeral. -/
def ofText? (s : String) : Option Float := (Numeral.ofText? s).map ofNumeral

instance : Scalar Float where
  zero := 0.0
  one := 1.0
  add := Float.add
  mul := Float.mul
  neg := Float.neg
  div := Float.div
  beq := Float.beq
  near a b := (a - b).abs < tolerance
  isNegative v := v < 0.0
  round := Float.round
  magnitude v := v.abs.toUInt64.toNat
  text := text
  ofText? := ofText?

end SymbolicAlgebra.Binary64
