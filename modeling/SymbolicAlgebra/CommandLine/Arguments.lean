/-
  SymbolicAlgebra.CommandLine.Arguments — the arguments of the command line.

      [INPUT]                  the program to read; standard input if there is none
      -o, --output FILE        where to write; standard output if there is none
      -s, --symbol NAME        write only the definition of this name
      -p, --pretty             the spaced form of the definition language
      -f, --format FORMAT      plain, latex or glm
      -v, --verbose            log more; can be repeated
      --                       what follows is no option

  Short options can be put together, the last of them with its value attached or after an `=`.
  A long option takes its value after an `=` or as the next argument. An argument that begins
  with a minus is an option, except for a minus alone. Apart from `-v` nothing can be given
  twice, and a file must have a name.
-/

namespace SymbolicAlgebra.CommandLine

/-- The target languages. -/
inductive Format where
  | plain
  | latex
  | glm
  deriving Repr, DecidableEq

def Format.ofName? : String → Option Format
  | "plain" => some .plain
  | "latex" => some .latex
  | "glm" => some .glm
  | _ => none

/-- What the command line asks for. -/
structure Arguments where
  input : Option String
  output : Option String
  symbol : Option String
  format : Option Format
  pretty : Bool
  verbosity : Nat
  deriving Repr, DecidableEq

/-- The options that take a value. -/
inductive Setting where
  | output
  | symbol
  | format
  deriving Repr, DecidableEq

/-- The options without a value. -/
inductive Switch where
  | pretty
  | verbose
  deriving Repr, DecidableEq

/-- An option. -/
inductive Choice where
  | setting (s : Setting)
  | switch (s : Switch)
  deriving Repr, DecidableEq

def Choice.ofLetter? : Char → Option Choice
  | 'o' => some (.setting .output)
  | 's' => some (.setting .symbol)
  | 'f' => some (.setting .format)
  | 'p' => some (.switch .pretty)
  | 'v' => some (.switch .verbose)
  | _ => none

def Choice.ofWord? : String → Option Choice
  | "output" => some (.setting .output)
  | "symbol" => some (.setting .symbol)
  | "format" => some (.setting .format)
  | "pretty" => some (.switch .pretty)
  | "verbose" => some (.switch .verbose)
  | _ => none

namespace Arguments

/-- Nothing was asked for yet. -/
def none : Arguments := ⟨.none, .none, .none, .none, false, 0⟩

/-- Takes the value of a setting, unless there was one before or it makes no sense. -/
def set (a : Arguments) (s : Setting) (value : String) : Option Arguments :=
  match s with
  | .output => if a.output.isSome || value.isEmpty then .none else some { a with output := some value }
  | .symbol => if a.symbol.isSome then .none else some { a with symbol := some value }
  | .format =>
    match a.format, Format.ofName? value with
    | .none, some f => some { a with format := some f }
    | _, _ => .none

/-- Turns a switch on. -/
def turnOn (a : Arguments) : Switch → Option Arguments
  | .pretty => if a.pretty then .none else some { a with pretty := true }
  | .verbose => some { a with verbosity := a.verbosity + 1 }

/-- Takes an argument that is no option. -/
def positional (a : Arguments) (value : String) : Option Arguments :=
  if a.input.isSome || value.isEmpty then .none else some { a with input := some value }

/-- Takes short options that are put together; a setting at the end without a value waits for
    the next argument. -/
def takeLetters (a : Arguments) : List Char → Option (Arguments × Option Setting)
  | [] => some (a, .none)
  | c :: cs =>
    match Choice.ofLetter? c with
    | .none => .none
    | some (.switch s) => do takeLetters (← a.turnOn s) cs
    | some (.setting s) =>
      match cs with
      | [] => some (a, some s)
      | '=' :: value => (a.set s (String.ofList value)).map (·, .none)
      | value => (a.set s (String.ofList value)).map (·, .none)

/-- Takes a long option, given without its two minus signs. -/
def takeWord (a : Arguments) (cs : List Char) : Option (Arguments × Option Setting) :=
  let word := cs.takeWhile (· != '=')
  match Choice.ofWord? (String.ofList word), cs.drop word.length with
  | some (.switch s), [] => (a.turnOn s).map (·, .none)
  | some (.setting s), [] => some (a, some s)
  | some (.setting s), _ :: value => (a.set s (String.ofList value)).map (·, .none)
  | _, _ => .none

/-- Takes one argument before any `--`. -/
def take (a : Arguments) (arg : String) : Option (Arguments × Option Setting) :=
  match arg.toList with
  | '-' :: '-' :: word => a.takeWord word
  | '-' :: c :: cs => a.takeLetters (c :: cs)
  | _ => (a.positional arg).map (·, .none)

/-- The argument cannot be the value of an option. -/
def isOption (arg : String) : Bool :=
  match arg.toList with
  | '-' :: _ :: _ => true
  | _ => false

/-- Takes all arguments; there is no result for wrong usage. -/
def takeAll (a : Arguments) : List String → Option Arguments
  | [] => some a
  | arg :: rest =>
    if arg = "--" then rest.foldlM positional a
    else match a.take arg, rest with
      | .none, _ => .none
      | some (a, .none), rest => takeAll a rest
      | some (_, some _), [] => .none
      | some (a, some s), value :: rest =>
        if isOption value then .none
        else do takeAll (← a.set s value) rest

/-- What the arguments ask for; there is no result for wrong usage. -/
def parse (args : List String) : Option Arguments := none.takeAll args

end Arguments

end SymbolicAlgebra.CommandLine
