/-
  SymbolicAlgebra.Proofs.Grammar.ParseTree — parse trees, the words they are written as, and the values
  they come to.

  The grammar is stated without a reader. A tree says how the parts of an expression belong
  together, parentheses included, so it can be written in one way only (`ParseTree.words`); the grammar
  says which trees are allowed where (`ParseTree.Fits`), and with that how operators bind and group.
  `ParseTree.expr?` computes a tree from the bottom up with the operations on expressions.

  Blanks and positions do not count: a source is taken for the list of its words.
-/

import SymbolicAlgebra.Program

namespace SymbolicAlgebra

/-! ## Words -/

/-- What a token contributes to the grammar: all but its position, and of signs their kind only. -/
inductive Word where
  | name (text : String)
  | number (text : String)
  | sign (kind : TokenKind)
  deriving Repr, DecidableEq

namespace Word

def kind : Word → TokenKind
  | name _ => .name
  | number _ => .number
  | sign k => k

end Word

def Token.word (t : Token) : Word :=
  match t.kind with
  | .name => .name t.lexeme
  | .number => .number t.lexeme
  | k => .sign k

/-- The words that are left. -/
def Cursor.words (c : Cursor) : List Word := (c.rest.filter (·.kind != .whitespace)).map Token.word

/-- The words of a source. -/
def Source.words (source : String) : List Word := (Parser.ofSource source).cursor.words

/-! ## Trees -/

/-- How an expression is written. -/
inductive ParseTree where
  | number (text : String)
  | name (text : String)
  | paren (inner : ParseTree)
  | matrix (rows : List (List ParseTree))
  | transpose (e : ParseTree)
  | neg (e : ParseTree)
  | binary (op : Operator) (left right : ParseTree)
  /-- Two factors without a sign between them. -/
  | juxtapose (left right : ParseTree)

/-- The sign of an operator. -/
def Operator.sign : Operator → Word
  | add => .sign .add
  | sub => .sign .sub
  | mul => .sign .mul
  | div => .sign .div

namespace ParseTree

/-- A separator, if something follows it. -/
def separator {β : Type} (rest : List β) (kind : TokenKind) : List Word := if rest.isEmpty then [] else [.sign kind]

mutual

/-- The words that the tree is written as. -/
def words : ParseTree → List Word
  | .number s => [.number s]
  | .name n => [.name n]
  | .paren e => .sign .openParen :: (words e ++ [.sign .closeParen])
  | .matrix rows => .sign .openSquare :: (wordsOfRows rows ++ [.sign .closeSquare])
  | .transpose e => words e ++ [.sign .quote]
  | .neg e => .sign .sub :: words e
  | .binary op l r => words l ++ op.sign :: words r
  | .juxtapose l r => words l ++ words r

/-- The entries of a row with commas between them. -/
def wordsOfRow : List ParseTree → List Word
  | [] => []
  | t :: ts => words t ++ (separator ts .comma ++ wordsOfRow ts)

/-- The rows of a matrix with semicolons between them. -/
def wordsOfRows : List (List ParseTree) → List Word
  | [] => []
  | r :: rs => wordsOfRow r ++ (separator rs .semicolon ++ wordsOfRows rs)

end

section
variable {α : Type} [Scalar α]

mutual

/-- The value of the tree, if every part of it has one. -/
def expr? : ParseTree → Option (Expr α)
  | .number s => (Scalar.ofText? (String.ofList (s.toList.filter (· != '_')))).map .const
  | .name n => some (.ofName n)
  | .paren e => expr? e
  | .matrix rows => do
    let g ← Grid.ofRows? (← rows? rows)
    return .matrix g
  | .transpose e => do
    match ← expr? e with
    | .matrix g => return .matrix g.transpose
    | _ => none
  | .neg e => do return (← expr? e).neg
  | .binary op l r => do (op.apply (← expr? l) (← expr? r)).toOption
  | .juxtapose l r => do (Operator.mul.apply (← expr? l) (← expr? r)).toOption

/-- The values of the entries of a row. -/
def row? : List ParseTree → Option (List (Expr α))
  | [] => some []
  | t :: ts => do return (← expr? t) :: (← row? ts)

/-- The values of all entries, row by row. -/
def rows? : List (List ParseTree) → Option (List (List (Expr α)))
  | [] => some []
  | r :: rs => do return (← row? r) :: (← rows? rs)

end

end

/-! ## The grammar -/

/-- The places in the grammar, the tightest first. -/
inductive Phrase where
  | operand
  | primed
  | unary
  | term
  | expr

/-- The tree can be written at this place. Operators group to the left. -/
inductive Fits : Phrase → ParseTree → Prop
  | number (s : String) : Fits .operand (.number s)
  | name (n : String) : Fits .operand (.name n)
  | paren {e : ParseTree} : Fits .expr e → Fits .operand (.paren e)
  | matrix {rows : List (List ParseTree)} : rows ≠ [] → (∀ row ∈ rows, row ≠ []) → (∀ row ∈ rows, ∀ t ∈ row, Fits .expr t) →
      Fits .operand (.matrix rows)
  | operand {e : ParseTree} : Fits .operand e → Fits .primed e
  | transpose {e : ParseTree} : Fits .primed e → Fits .primed (.transpose e)
  | primed {e : ParseTree} : Fits .primed e → Fits .unary e
  | neg {e : ParseTree} : Fits .primed e → Fits .unary (.neg e)
  | unary {e : ParseTree} : Fits .unary e → Fits .term e
  | multiplicative {op : Operator} {l r : ParseTree} : op = .mul ∨ op = .div → Fits .term l → Fits .unary r →
      Fits .term (.binary op l r)
  /-- The sign can be missing before a parenthesis. -/
  | juxtapose {l r : ParseTree} : Fits .term l → Fits .unary r → r.words.head? = some (.sign .openParen) →
      Fits .term (.juxtapose l r)
  | term {e : ParseTree} : Fits .term e → Fits .expr e
  | additive {op : Operator} {l r : ParseTree} : op = .add ∨ op = .sub → Fits .expr l → Fits .term r →
      Fits .expr (.binary op l r)

end ParseTree

/-! ## Definitions -/

/-- How a definition is written. -/
structure Statement where
  name : String
  body : ParseTree

namespace Statement

def words (s : Statement) : List Word := .name s.name :: .sign .assign :: (s.body.words ++ [.sign .semicolon])

/-- The source is written as these definitions, one after the other. -/
def Spell (ss : List Statement) (source : String) : Prop :=
  Source.words source = ss.flatMap words ∧ ∀ s ∈ ss, s.body.Fits .expr

end Statement

end SymbolicAlgebra
