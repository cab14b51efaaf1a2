/-
  SymbolicAlgebra.Source.Token — the tokens of the definition language.

  `Token.scan` cuts a source into tokens, blanks included, so that the lexemes put together
  are the source again. At every place the longest token is taken:

      blanks    spaces, tabs, carriage returns and line feeds
      name      a letter, then letters and underscores
      number    a digit, then digits and underscores, and optionally a point and more of them;
                or a point, a digit, then digits and underscores
      sign      one of  + - * / ' = , ; ( ) [ ]

  Letters and digits are those of ASCII. A character that starts none of these is a token of
  its own, for whoever reads the tokens to complain about.
-/

import SymbolicAlgebra.Source.Span

namespace SymbolicAlgebra

/-- The kinds of token. -/
inductive TokenKind where
  | whitespace
  | add
  | sub
  | mul
  | div
  /-- The postfix sign for the transposed matrix. -/
  | quote
  | assign
  | comma
  | semicolon
  | openParen
  | closeParen
  | openSquare
  | closeSquare
  | name
  | number
  /-- A character that is not in the language. -/
  | symbol
  deriving Repr, DecidableEq

/-- A short description, for messages. -/
def TokenKind.describe : TokenKind → String
  | whitespace => "whitespace"
  | add => "`+`"
  | sub => "`-`"
  | mul => "`*`"
  | div => "`/`"
  | quote => "`'`"
  | assign => "`=`"
  | comma => "`,`"
  | semicolon => "`;`"
  | openParen => "`(`"
  | closeParen => "`)`"
  | openSquare => "`[`"
  | closeSquare => "`]`"
  | name => "a name"
  | number => "a number"
  | symbol => "an unknown character"

/-- A token: its kind, where it is, and its text. -/
structure Token where
  kind : TokenKind
  span : Span
  lexeme : String
  deriving Repr, DecidableEq

namespace Token

/-! ## Character classes -/

def isBlank (c : Char) : Bool := c = ' ' || c = '\t' || c = '\r' || c = '\n'

def isNameStart (c : Char) : Bool := c.isAlpha

def isNamePart (c : Char) : Bool := c.isAlpha || c = '_'

def isDigitPart (c : Char) : Bool := c.isDigit || c = '_'

/-- The signs of one character. -/
def sign? : Char → Option TokenKind
  | '+' => some .add
  | '-' => some .sub
  | '*' => some .mul
  | '/' => some .div
  | '\'' => some .quote
  | '=' => some .assign
  | ',' => some .comma
  | ';' => some .semicolon
  | '(' => some .openParen
  | ')' => some .closeParen
  | '[' => some .openSquare
  | ']' => some .closeSquare
  | _ => none

/-! ## Longest tokens -/

/-- How many characters at the front pass the test. -/
def run (p : Char → Bool) (cs : List Char) : Nat := (cs.takeWhile p).length

/-- How many characters continue a number after its first digit. -/
def numberRun (cs : List Char) : Nat :=
  let whole := run isDigitPart cs
  match cs.drop whole with
  | '.' :: fraction => whole + 1 + run isDigitPart fraction
  | _ => whole

/-- The kind of the token that starts with `c`, and how many of the characters after `c` belong
    to it. -/
def first (c : Char) (cs : List Char) : TokenKind × Nat :=
  if isBlank c then (.whitespace, run isBlank cs)
  else if isNameStart c then (.name, run isNamePart cs)
  else if c.isDigit then (.number, numberRun cs)
  else match sign? c, cs with
    | some kind, _ => (kind, 0)
    | none, d :: ds => if c = '.' && d.isDigit then (.number, 1 + run isDigitPart ds) else (.symbol, 0)
    | none, [] => (.symbol, 0)

/-- Cuts the characters into tokens; the first one starts at byte `start`. -/
def scanFrom (start : Nat) : List Char → List Token
  | [] => []
  | c :: cs =>
    let kind := (first c cs).1
    let more := (first c cs).2
    let text := c :: cs.take more
    let stop := start + Source.byteLength text
    ⟨kind, ⟨start, stop⟩, String.ofList text⟩ :: scanFrom stop (cs.drop more)
termination_by cs => cs.length
decreasing_by simp only [List.length_drop, List.length_cons]; omega

/-- All tokens of a source. -/
def scan (source : String) : List Token := scanFrom 0 source.toList

end Token

end SymbolicAlgebra
