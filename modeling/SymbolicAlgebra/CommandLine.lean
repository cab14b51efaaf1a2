/-
  SymbolicAlgebra.CommandLine — from arguments and input to output.

  The input is read before anything else is done with it; a program that cannot be read or a
  name that it does not define leaves no output. The output ends with a line feed.

  `run` is the whole command on a directory of files. The exit codes are `0` for success, `1`
  for a failure, which one line on standard error reports, and `2` for wrong usage.
-/

import SymbolicAlgebra.CommandLine.Arguments
import SymbolicAlgebra.CommandLine.Directory
import SymbolicAlgebra.Program
import SymbolicAlgebra.Style.Glm
import SymbolicAlgebra.Style.Latex

namespace SymbolicAlgebra.CommandLine

variable {α : Type} [Scalar α]

/-- The style of a target language. -/
def Format.style (pretty : Bool) : Format → Style α
  | .plain => Style.plain pretty
  | .latex => Style.latex
  | .glm => Style.glm

/-- Why there is no output. -/
inductive Failure where
  | problem (p : Problem)
  | unknownName (u : Program.UnknownName)
  | file (path : String) (reason : String)
  deriving Repr, DecidableEq

/-- The first line of a text. A line ends with a line feed or with a carriage return and a line
    feed. -/
def firstLine (text : String) : String :=
  let line := text.toList.takeWhile (· != '\n')
  String.ofList (if line.getLast? = some '\r' then line.dropLast else line)

/-- The first line of the report on standard error. -/
def Failure.message (f : Failure) : String :=
  let text := match f with
    | .problem p => "Error: " ++ p.cause.message
    | .unknownName u => "error: " ++ u.message
    | .file path reason => "error: " ++ path ++ ": " ++ reason
  firstLine text

/-- The text with a line feed at its end. -/
def endLine (text : String) : String := if text.toList.getLast? = some '\n' then text else text ++ "\n"

/-- Puts the cause of a failure among all causes. -/
def orFail {ε β : Type} (cause : ε → Failure) (r : Except ε β) : Except Failure β := r.mapError cause

/-- The output for a program: one definition or all of them. -/
def output (α : Type) [Scalar α] (a : Arguments) (source : String) : Except Failure String := do
  let program : Program α ← orFail .problem (Program.parse source)
  let style := (a.format.getD .plain).style a.pretty
  match a.symbol with
  | some name => return endLine (← orFail .unknownName (program.renderDefinition style name))
  | none => return endLine (program.render style)

/-- What a run of the command leaves behind. -/
structure Outcome where
  exit : Nat
  stdout : String
  message : Option String
  directory : Directory

/-- A run with arguments that make sense: the text for standard output and the directory after it. -/
def perform (α : Type) [Scalar α] (a : Arguments) (stdin : String) (d : Directory) :
    Except Failure (String × Directory) := do
  let source ← match a.input with
    | some path => orFail (fun e => .file path e.message) (d.read path)
    | none => pure stdin
  let text ← output α a source
  match a.output with
  | some path => return ("", ← orFail (fun e => .file path e.message) (d.write path text))
  | none => return (text, d)

/-- A run of the command. -/
def run (α : Type) [Scalar α] (args : List String) (stdin : String) (d : Directory) : Outcome :=
  match Arguments.parse args with
  | none => ⟨2, "", none, d⟩
  | some a =>
    match perform α a stdin d with
    | .ok (text, d') => ⟨0, text, none, d'⟩
    | .error f => ⟨1, "", some f.message, d⟩

end SymbolicAlgebra.CommandLine
