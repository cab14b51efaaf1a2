/-
  SymbolicAlgebra.Source.Span — regions of a source text, in bytes, and the lines and columns
  they begin at.

  A line ends with a line feed. Lines and columns count from one; a column counts characters,
  not bytes.
-/

namespace SymbolicAlgebra

/-- The bytes from `start` up to but not including `stop`. -/
structure Span where
  start : Nat
  stop : Nat
  deriving Repr, DecidableEq

/-- A line and a column, both counted from one. -/
structure Location where
  line : Nat
  column : Nat
  deriving Repr, DecidableEq

namespace Source

/-- The number of bytes that the characters take. -/
def byteLength : List Char → Nat
  | [] => 0
  | c :: cs => c.utf8Size + byteLength cs

/-- The characters of the first `offset` bytes, if a character ends there. -/
def before? : List Char → Nat → Option (List Char)
  | [], n => if n = 0 then some [] else none
  | c :: cs, n =>
    if n = 0 then some []
    else if c.utf8Size ≤ n then (before? cs (n - c.utf8Size)).map (c :: ·)
    else none

/-- The line and column just after the given characters. -/
def locationAfter (cs : List Char) : Location :=
  ⟨cs.count '\n' + 1, (cs.reverse.takeWhile (· != '\n')).length + 1⟩

/-- The line and column of a byte of the source. An offset that is not the start of a character
    is taken for the end of the source. -/
def location (source : String) (offset : Nat) : Location :=
  locationAfter ((before? source.toList offset).getD source.toList)

end Source

end SymbolicAlgebra
