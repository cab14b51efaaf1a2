/-
  SymbolicAlgebra.Main — the command: arguments, files and streams around `CommandLine.output`.
-/

import SymbolicAlgebra.Binary64
import SymbolicAlgebra.CommandLine

namespace SymbolicAlgebra.CommandLine

/-- The words of the operating system for a failed access. -/
def reason : IO.Error → String
  | .noFileOrDirectory _ number words
  | .inappropriateType _ number words
  | .invalidArgument _ number words
  | .permissionDenied _ number words
  | .resourceExhausted _ number words
  | .noSuchThing _ number words
  | .alreadyExists _ number words
  | .otherError number words => FileError.report words number.toNat
  | e => toString e

/-- Does something with a file; a failure names the file. -/
def withFile {β : Type} (path : String) (act : IO β) : ExceptT Failure IO β := do
  match ← act.toBaseIO with
  | .ok r => return r
  | .error e => throw (.file path (reason e))

/-- Reads the input, computes the output and writes it. -/
def execute (a : Arguments) : ExceptT Failure IO Unit := do
  let source ← match a.input with
    | some path => withFile path (IO.FS.readFile path)
    | none => do (← IO.getStdin).readToEnd
  let text ← match output Float a source with
    | .ok text => pure text
    | .error f => throw f
  match a.output with
  | some path => withFile path (IO.FS.writeFile path text)
  | none => do (← IO.getStdout).putStr text

end SymbolicAlgebra.CommandLine

open SymbolicAlgebra CommandLine

def main (args : List String) : IO UInt32 := do
  match Arguments.parse args with
  | none =>
    IO.eprintln "error: wrong usage"
    return 2
  | some a =>
    match ← (execute a).run with
    | .ok () => return 0
    | .error f =>
      IO.eprintln f.message
      return 1
