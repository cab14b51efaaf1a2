/-
  SymbolicAlgebra.Source.Parser — reading a source piece by piece.

  A parser holds all tokens of its source and how many of them are behind it. `Parser.attempt`
  tries to read a piece of the grammar: it moves forward if that succeeds and stays where it is
  otherwise. `Parser.next` reads a single token; looking for one at the end of the source
  passes over the blanks that are left.
-/

import SymbolicAlgebra.Source.Grammar

namespace SymbolicAlgebra

/-- The tokens of a source and the number of those that were read. -/
structure Parser where
  tokens : List Token
  position : Nat
  deriving Repr, DecidableEq

namespace Parser

/-- A parser at the start of the source. -/
def ofSource (source : String) : Parser := ⟨Token.scan source, 0⟩

/-- The byte at which the last token ends. -/
def stop (p : Parser) : Nat := (p.tokens.getLast?.map (·.span.stop)).getD 0

/-- The place among the tokens. -/
def cursor (p : Parser) : Cursor := ⟨p.tokens.drop p.position, p.stop⟩

/-- The parser with the cursor at another place of its tokens. -/
def moveTo (p : Parser) (c : Cursor) : Parser := { p with position := p.tokens.length - c.rest.length }

/-- The kind of the next token that is no blank. -/
def peek? (p : Parser) : Option TokenKind := p.cursor.peek?

/-- Only blanks are left. -/
def atEnd (p : Parser) : Bool := p.cursor.atEnd

/-- Where the token under the cursor is, or the end of the source. -/
def span (p : Parser) : Span := p.cursor.span

/-- The empty span at the end of the source. -/
def eofSpan (p : Parser) : Span := p.cursor.eofSpan

/-- Reads one token; afterwards the parser is behind it, or at the end if there is none. -/
def next (p : Parser) : Except Problem Token × Parser :=
  match p.cursor.next with
  | .ok (t, c) => (.ok t, p.moveTo c)
  | .error e => (.error e, { p with position := p.tokens.length })

/-- Tries to read a piece of the grammar. -/
def attempt {α β : Type} (read : Cursor → Reading α (β × Cursor)) (p : Parser) : Except Problem β × Parser :=
  match (read p.cursor).result with
  | .ok (b, c) => (.ok b, p.moveTo c)
  | .error e => (.error e, p)

end Parser

end SymbolicAlgebra
