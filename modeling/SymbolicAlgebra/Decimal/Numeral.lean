/-
  SymbolicAlgebra.Decimal.Numeral — reading decimal notation.

  A numeral is an optional sign, digits with at most one point and at least one digit, and
  an optional exponent (`e` or `E`, an optional sign, digits). The words `inf`, `infinity`
  and `nan` stand for the values that are not finite, in any mixture of cases.
-/

import SymbolicAlgebra.Decimal

namespace SymbolicAlgebra

/-- What a numeral stands for. -/
inductive Numeral where
  | finite (negative : Bool) (value : Decimal)
  | infinite (negative : Bool)
  | notANumber
  deriving Repr, DecidableEq

namespace Numeral

/-- The number that a list of digits stands for. -/
def ofDigits (ds : List Char) : Nat := ds.foldl (fun n c => 10 * n + (c.toNat - '0'.toNat)) 0

/-- Takes an optional sign off the front; `true` is a minus. -/
def sign : List Char → Bool × List Char
  | '-' :: cs => (true, cs)
  | '+' :: cs => (false, cs)
  | cs => (false, cs)

/-- The exponent that ends a numeral, `0` when there is none. -/
def exponent? : List Char → Option Int
  | [] => some 0
  | c :: cs =>
    if c = 'e' ∨ c = 'E' then
      let (negative, ds) := sign cs
      if ds.isEmpty || !ds.all Char.isDigit then none
      else some (if negative then -(ofDigits ds : Int) else (ofDigits ds : Int))
    else none

/-- Digits with at most one point and at least one digit, then an exponent. -/
def decimal? (cs : List Char) : Option Decimal :=
  let whole := cs.takeWhile Char.isDigit
  let rest := cs.dropWhile Char.isDigit
  let (fraction, tail) := match rest with
    | '.' :: after => (after.takeWhile Char.isDigit, after.dropWhile Char.isDigit)
    | _ => ([], rest)
  if whole.isEmpty && fraction.isEmpty then none
  else (exponent? tail).map fun e => ⟨ofDigits (whole ++ fraction), e - fraction.length⟩

/-- Reads a whole numeral. -/
def ofChars? (cs : List Char) : Option Numeral :=
  let (negative, body) := sign cs
  let word := String.ofList (body.map Char.toLower)
  if word = "inf" ∨ word = "infinity" then some (.infinite negative)
  else if word = "nan" then some .notANumber
  else (decimal? body).map (.finite negative)

/-- Reads a whole numeral. -/
def ofText? (s : String) : Option Numeral := ofChars? s.toList

end Numeral

end SymbolicAlgebra
