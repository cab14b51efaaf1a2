/-
  SymbolicAlgebra.Source.Cursor — a place among the tokens of a source.

  A cursor is what is left of the tokens. Reading a token passes over the blanks before it and
  leaves the blanks after it, so the token under the cursor may be a blank. A reading that
  fails gives no cursor, so whoever tried it still stands where it began.
-/

import SymbolicAlgebra.Source.Problem

namespace SymbolicAlgebra

/-- The tokens that are left, and the byte at which the source ends. -/
structure Cursor where
  rest : List Token
  stop : Nat
  deriving Repr, DecidableEq

namespace Cursor

/-- The empty span at the end of the source. -/
def eofSpan (c : Cursor) : Span := ⟨c.stop, c.stop⟩

/-- Where the token under the cursor is, or the end of the source. -/
def span (c : Cursor) : Span :=
  match c.rest with
  | [] => c.eofSpan
  | t :: _ => t.span

/-- The cursor at the next token that is no blank. -/
def skipBlanks (c : Cursor) : Cursor := { c with rest := c.rest.dropWhile (·.kind == .whitespace) }

/-- The kind of the next token that is no blank. -/
def peek? (c : Cursor) : Option TokenKind := c.skipBlanks.rest.head?.map Token.kind

/-- Only blanks are left. -/
def atEnd (c : Cursor) : Bool := c.peek?.isNone

/-- The problem of finding `t` where one of the expected kinds should be. -/
def unexpected (t : Token) (expected : List TokenKind) : Problem :=
  if t.kind = .symbol then ⟨.unexpectedCharacter t.lexeme, [t.span]⟩
  else ⟨.unexpectedToken expected t.kind, [t.span]⟩

/-- The problem of finding no more tokens. -/
def unexpectedEof (c : Cursor) : Problem := ⟨.unexpectedEof, [c.eofSpan]⟩

/-- Reads one token. -/
def next (c : Cursor) : Except Problem (Token × Cursor) :=
  match c.skipBlanks.rest with
  | [] => .error c.unexpectedEof
  | t :: rest => .ok (t, { c with rest := rest })

/-- Reads one token of the given kind. -/
def expect (kind : TokenKind) (c : Cursor) : Except Problem (Token × Cursor) := do
  let (t, c) ← c.next
  if t.kind = kind then return (t, c) else throw (unexpected t [kind])

end Cursor

end SymbolicAlgebra
