/-
  SymbolicAlgebra.Source.Grammar — reading expressions, matrices and definitions.

      definition = name '=' expr ';'
      expr       = term (('+' | '-') term)*
      term       = unary (('*' | '/') unary | unary)*     where a bare unary starts with '('
      unary      = '-'? postfix
      postfix    = operand '''*
      operand    = number | name | '(' expr ')' | matrix
      matrix     = '[' expr ((',' | ';') expr)* ']'

  Operators group to the left. Values are combined while they are read, so a combination that
  has no result is reported before anything that comes after it. A transposed value must be a
  matrix and the rows of a matrix must have one length.

  The rules are functions of `nested`, the reader for expressions in brackets. `exprWithin`
  closes the circle with a bound on how deep the brackets go. Each bracket takes a token, so
  the number of tokens is bound enough: when it is used up there is no token left either.
-/

import SymbolicAlgebra.Expr.Div
import SymbolicAlgebra.Log
import SymbolicAlgebra.Source.Cursor

namespace SymbolicAlgebra

/-- A value and the region of the source that it was read from. -/
structure Located (β : Type) where
  value : β
  span : Span

/-- A computation while reading: a result or a problem, and notes. -/
abbrev Reading (α : Type) := Logged (Note α) Problem

/-- Reads an expression: its value with its region, and the cursor after it. -/
abbrev ExprReader (α : Type) := Cursor → Reading α (Located (Expr α) × Cursor)

namespace Operator

variable {α : Type} [Scalar α]

/-- The operator between two terms. -/
def additive? : TokenKind → Option Operator
  | .add => some .add
  | .sub => some .sub
  | _ => none

/-- The operator between two factors; an opening parenthesis multiplies. -/
def multiplicative? : TokenKind → Option Operator
  | .mul => some .mul
  | .openParen => some .mul
  | .div => some .div
  | _ => none

/-- Combines two values. -/
def apply : Operator → Expr α → Expr α → Except ArithError (Expr α)
  | add => Expr.add
  | sub => Expr.sub
  | mul => Expr.mul
  | div => Expr.div

end Operator

namespace Grammar

variable {α : Type} [Scalar α]

/-- The tokens that can start an operand. -/
def operandStart : List TokenKind := [.number, .name, .openParen, .openSquare]

/-- The tokens that can start an expression. -/
def exprStart : List TokenKind := .sub :: operandStart

/-- The tokens that can follow an entry of a matrix. -/
def afterEntry : List TokenKind := [.comma, .semicolon, .closeSquare]

/-- Combines two operands. A failure concerns the whole region from the first to the second. -/
def combine (op : Operator) (lhs rhs : Located (Expr α)) : Reading α (Located (Expr α)) := do
  let span : Span := ⟨lhs.span.start, rhs.span.stop⟩
  Logged.tell [.combining op lhs.value rhs.value]
  match op.apply lhs.value rhs.value with
  | .ok v => return ⟨v, span⟩
  | .error e => throw ⟨.invalidExpression e, [span]⟩

/-! ## Matrices -/

/-- A row that is complete must be as long as the first row. -/
def checkRow (rows : List (List (Expr α))) (row : List (Expr α)) (span : Span) : Except Problem Unit :=
  match rows.head? with
  | some first => if first.length = row.length then return ()
                  else throw ⟨.rowLength first.length row.length, [span]⟩
  | none => return ()

/-- Reads entries up to the closing bracket. `rows` are complete, `row` is under way and began at
    byte `start`. -/
def entries (nested : ExprReader α) :
    Nat → List (List (Expr α)) → List (Expr α) → Option Nat → Cursor →
      Reading α ((List (List (Expr α)) × Token) × Cursor)
  | 0, _, _, _, c => throw c.unexpectedEof
  | n + 1, rows, row, start, c => do
    let (entry, c) ← nested c
    let span : Span := ⟨start.getD entry.span.start, entry.span.stop⟩
    let row := row ++ [entry.value]
    let (separator, c) ← c.next
    match separator.kind with
    | .comma => entries nested n rows row (some span.start) c
    | .semicolon => do
      checkRow rows row span
      entries nested n (rows ++ [row]) [] none c
    | .closeSquare => do
      checkRow rows row span
      return ((rows ++ [row], separator), c)
    | _ => throw (Cursor.unexpected separator afterEntry)

/-- Reads a matrix. -/
def matrixWith (nested : ExprReader α) (c : Cursor) :
    Reading α (Located (Grid (Expr α)) × Cursor) := do
  let (opening, c) ← c.next
  if opening.kind ≠ .openSquare then throw (Cursor.unexpected opening [.openSquare])
  else if c.peek? = some .closeSquare then
    let (closing, _) ← c.next
    throw ⟨.emptyMatrix, [⟨opening.span.start, closing.span.stop⟩]⟩
  else
    let ((rows, closing), c) ← entries nested c.rest.length [] [] none c
    let span : Span := ⟨opening.span.start, closing.span.stop⟩
    match Grid.ofRows? rows with
    | some g => return (⟨g, span⟩, c)
    | none => throw ⟨.emptyMatrix, [span]⟩

/-! ## Expressions -/

/-- Reads the number of a token, whose underscores only separate digits. -/
def number (t : Token) : Except Problem (Expr α) :=
  match Scalar.ofText? (String.ofList (t.lexeme.toList.filter (· != '_'))) with
  | some v => return .const v
  | none => throw ⟨.invalidNumber t.lexeme, [t.span]⟩

/-- Reads a number, a name, an expression in parentheses or a matrix. -/
def operand (nested : ExprReader α) (c : Cursor) : Reading α (Located (Expr α) × Cursor) := do
  if c.peek? = some .openSquare then
    let (m, c) ← matrixWith nested c
    return (⟨.matrix m.value, m.span⟩, c)
  else
    let (t, c) ← c.next
    match t.kind with
    | .number => return (⟨← number t, t.span⟩, c)
    | .name => return (⟨.ofName t.lexeme, t.span⟩, c)
    | .openParen => do
      let (inner, c) ← nested c
      let (closing, c) ← c.expect .closeParen
      return (⟨inner.value, ⟨t.span.start, closing.span.stop⟩⟩, c)
    | _ => throw (Cursor.unexpected t exprStart)

/-- Applies the transpose signs that follow an operand; there are at most so many. -/
def transposes : Nat → Located (Expr α) → Cursor → Reading α (Located (Expr α) × Cursor)
  | 0, e, c => return (e, c)
  | n + 1, e, c => do
    if c.peek? ≠ some .quote then return (e, c)
    else
      let (sign, c) ← c.next
      match e.value with
      | .matrix g => transposes n ⟨.matrix g.transpose, ⟨e.span.start, sign.span.stop⟩⟩ c
      | _ => throw ⟨.transposeNonMatrix, [e.span, sign.span]⟩

/-- Reads an operand with its transpose signs. -/
def postfixed (nested : ExprReader α) (c : Cursor) : Reading α (Located (Expr α) × Cursor) := do
  let (e, c) ← operand nested c
  transposes c.rest.length e c

/-- Reads an operand with one minus sign at most. -/
def unary (nested : ExprReader α) (c : Cursor) : Reading α (Located (Expr α) × Cursor) := do
  if c.peek? ≠ some .sub then postfixed nested c
  else
    let (minus, c) ← c.next
    if c.peek? = some .sub then
      let (second, _) ← c.next
      throw (Cursor.unexpected second operandStart)
    else
      let (e, c) ← postfixed nested c
      return (⟨e.value.neg, ⟨minus.span.start, e.span.stop⟩⟩, c)

/-- Passes over the sign of an operator. The parenthesis that multiplies belongs to the operand
    after it. -/
def skipSign (c : Cursor) : Except Problem Cursor := do
  if c.peek? = some .openParen then return c
  else
    let (_, c) ← c.next
    return c

/-- Reads operators and operands after the value so far, at most so many, grouping to the left. -/
def operations (operator? : TokenKind → Option Operator) (read : ExprReader α) :
    Nat → Located (Expr α) → Cursor → Reading α (Located (Expr α) × Cursor)
  | 0, lhs, c => return (lhs, c)
  | n + 1, lhs, c =>
    match c.peek?.bind operator? with
    | none => return (lhs, c)
    | some op => do
      let c ← skipSign c
      let (rhs, c) ← read c
      let lhs ← combine op lhs rhs
      operations operator? read n lhs c

/-- Reads factors. -/
def term (nested : ExprReader α) (c : Cursor) : Reading α (Located (Expr α) × Cursor) := do
  let (lhs, c) ← unary nested c
  operations Operator.multiplicative? (unary nested) c.rest.length lhs c

/-- Reads terms. -/
def exprWith (nested : ExprReader α) (c : Cursor) : Reading α (Located (Expr α) × Cursor) := do
  let (lhs, c) ← term nested c
  operations Operator.additive? (term nested) c.rest.length lhs c

/-- Reads an expression with brackets at most so deep. -/
def exprWithin : Nat → ExprReader α
  | 0, c => throw c.unexpectedEof
  | n + 1, c => exprWith (exprWithin n) c

/-- Reads an expression. -/
def expr (c : Cursor) : Reading α (Located (Expr α) × Cursor) := exprWithin c.rest.length c

/-- Reads a matrix. -/
def matrix (c : Cursor) : Reading α (Located (Grid (Expr α)) × Cursor) := matrixWith (exprWithin c.rest.length) c

end Grammar

/-! ## Definitions -/

/-- One definition as it was read. -/
structure Definition (α : Type) where
  name : String
  nameSpan : Span
  value : Expr α
  span : Span

/-- Reads a definition. A name where the semicolon should be is most likely the next definition. -/
def Grammar.definition {α : Type} [Scalar α] (c : Cursor) : Reading α (Definition α × Cursor) := do
  let (name, c) ← c.expect .name
  if c.atEnd then throw ⟨.unterminatedName name.lexeme, [name.span]⟩
  else
    let (_, c) ← c.expect .assign
    let (value, c) ← Grammar.expr c
    if c.peek? = some .name then throw ⟨.unexpectedToken [.semicolon] .name, [c.span]⟩
    else
      let (semicolon, c) ← c.expect .semicolon
      return (⟨name.lexeme, name.span, value.value, ⟨name.span.start, semicolon.span.stop⟩⟩, c)

end SymbolicAlgebra
