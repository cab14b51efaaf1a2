/-
  SymbolicAlgebra.Source.Problem — what can be wrong with a source, and the words for it.

  A problem is a cause and the spans it concerns, one for each label of the cause. Line and
  column are those of the first span.
-/

import SymbolicAlgebra.ArithError
import SymbolicAlgebra.Source.Token

namespace SymbolicAlgebra

/-- Why a source cannot be read. -/
inductive Cause where
  /-- The source ends in the middle of a definition. -/
  | unexpectedEof
  /-- A token of another kind than those expected. -/
  | unexpectedToken (expected : List TokenKind) (found : TokenKind)
  /-- A character that is not in the language. -/
  | unexpectedCharacter (character : String)
  /-- A number that cannot be read. -/
  | invalidNumber (lexeme : String)
  /-- A name at the end of the source. -/
  | unterminatedName (name : String)
  /-- A name that is defined twice. -/
  | duplicateDefinition (name : String)
  /-- A definition that mentions its own name. -/
  | selfReference (name : String)
  /-- A row of a matrix with another number of entries than the first. -/
  | rowLength (expected found : Nat)
  /-- A matrix without entries. -/
  | emptyMatrix
  /-- The transpose of a value that is no matrix. -/
  | transposeNonMatrix
  /-- Values that cannot be combined. -/
  | invalidExpression (error : ArithError)
  deriving Repr, DecidableEq

namespace Cause

/-- The one-line message. -/
def message : Cause → String
  | unexpectedEof => "unexpected end of file"
  | unexpectedToken _ _ => "unexpected token"
  | unexpectedCharacter c => "unexpected character `" ++ c ++ "`"
  | invalidNumber lexeme => "invalid number `" ++ lexeme ++ "`"
  | unterminatedName n => "unterminated name `" ++ n ++ "`"
  | duplicateDefinition n => "`" ++ n ++ "` is defined more than once"
  | selfReference n => "`" ++ n ++ "` is defined in terms of itself"
  | rowLength expected found =>
    "expected row to have " ++ toString expected ++ " columns, found " ++ toString found
  | emptyMatrix => "empty matrix"
  | transposeNonMatrix => "cannot transpose a value that is not a matrix"
  | invalidExpression e => e.message

/-- What is written at each of the spans. -/
def labels : Cause → List String
  | unexpectedEof => ["you might need to add another expression here"]
  | unexpectedToken expected _ => ["expected one of: " ++ ", ".intercalate (expected.map TokenKind.describe)]
  | unexpectedCharacter _ => ["this character is not allowed here"]
  | invalidNumber _ => ["this number"]
  | unterminatedName _ => ["this name is never assigned a value"]
  | duplicateDefinition _ => ["first defined here", "defined again here"]
  | selfReference _ => ["this definition"]
  | rowLength _ found => ["this row has " ++ toString found ++ " columns"]
  | emptyMatrix => ["this matrix has no entries"]
  | transposeNonMatrix => ["this value", "transposed here"]
  | invalidExpression _ => ["while evaluating this expression"]

/-- Advice, where there is some. -/
def help? : Cause → Option String
  | unexpectedToken _ found => some ("found " ++ found.describe)
  | unexpectedCharacter _ => some "names start with a letter and may only contain letters and `_`"
  | unterminatedName _ => some "a definition looks like `name = expression;`"
  | duplicateDefinition _ => some "each name can only be defined once; rename or remove one of the definitions"
  | selfReference n => some ("remove `" ++ n ++ "` from the right-hand side")
  | rowLength _ _ => some "every row of a matrix must have the same number of entries"
  | emptyMatrix => some "write the entries between the brackets, like `[1, 0; 0, 1]`"
  | transposeNonMatrix => some "only matrix literals, like `[1, 2]'`, can be transposed"
  | unexpectedEof => none
  | invalidNumber _ => none
  | invalidExpression _ => none

end Cause

/-- A cause and the regions of the source that it concerns. -/
structure Problem where
  cause : Cause
  spans : List Span
  deriving Repr, DecidableEq

namespace Problem

/-- The line and column of the first span. -/
def location (p : Problem) (source : String) : Location :=
  Source.location source ((p.spans.head?.map Span.start).getD 0)

/-- The message with the line and column before it. -/
def report (p : Problem) (source : String) : String :=
  let l := p.location source
  "parse error at " ++ toString l.line ++ ":" ++ toString l.column ++ ": " ++ p.cause.message

end Problem

end SymbolicAlgebra
