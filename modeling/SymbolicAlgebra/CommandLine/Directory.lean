/-
  SymbolicAlgebra.CommandLine.Directory — a directory of files, as far as reading and writing
  whole files can tell.

  A path is followed part by part from the directory on, or from the root if it begins with a
  slash. Every part but the last must lead to a directory (`enter`); a point stays where it is
  and two points go back. Of what lies outside the directory only that much is known: it is a
  directory, and so is whatever two points lead to from there. No file is found there, and a
  file written there is not seen again.

  What goes wrong is told in the words of the operating system. The first part that goes wrong
  decides; a path that is too long as a whole is not followed at all.
-/

namespace SymbolicAlgebra.CommandLine

/-- Why a file cannot be read or written. -/
inductive FileError where
  | notFound
  | isDirectory
  | notDirectory
  | nameTooLong
  deriving Repr, DecidableEq

namespace FileError

/-- The number that the operating system has for it. -/
def number : FileError → Nat
  | notFound => 2
  | isDirectory => 21
  | notDirectory => 20
  | nameTooLong => 36

def words : FileError → String
  | notFound => "No such file or directory"
  | isDirectory => "Is a directory"
  | notDirectory => "Not a directory"
  | nameTooLong => "File name too long"

/-- The words of the operating system with its number for them. -/
def report (words : String) (number : Nat) : String := words ++ " (os error " ++ toString number ++ ")"

def message (e : FileError) : String := report e.words e.number

end FileError

/-! ## Paths -/

/-- A path, taken apart. -/
structure Path where
  /-- It begins at the root. -/
  fromRoot : Bool
  /-- The parts between the slashes, without the empty ones. -/
  parts : List String
  /-- It ends with a slash, as only the path of a directory may. -/
  endsInSlash : Bool
  deriving Repr, DecidableEq

namespace Path

/-- The longest name of a file, in bytes. -/
def maxName : Nat := 255

/-- The longest path, in bytes. -/
def maxLength : Nat := 4095

def ofText (text : String) : Path where
  fromRoot := text.toList.head? == some '/'
  parts := (text.splitOn "/").filter (· != "")
  endsInSlash := text.toList.getLast? == some '/'

/-- The path, if it can be followed. -/
def ofText? (text : String) : Except FileError Path :=
  if text.isEmpty then .error .notFound
  else if maxLength < text.utf8ByteSize then .error .nameTooLong
  else .ok (ofText text)

end Path

/-- The path of a directory, as far as it is known. -/
inductive Place where
  /-- At or below the directory, by the names that lead there. -/
  | inside (names : List String)
  | outside
  deriving Repr, DecidableEq

/-- The directory that a directory is in. -/
def Place.parent : Place → Place
  | inside [] => outside
  | inside (n :: ns) => inside (n :: ns).dropLast
  | outside => outside

/-! ## Directories -/

/-- Files with the names that lead to them, and contents. A directory below is there if a file
    is in it. -/
structure Directory where
  files : List (List String × String)
  deriving Repr, DecidableEq

/-- What a name stands for. -/
inductive Entry where
  | file (contents : String)
  | directory
  | nothing
  deriving Repr, DecidableEq

namespace Directory

/-- The directory with the files of these paths and contents. -/
def ofFiles (files : List (String × String)) : Directory :=
  ⟨files.map fun f => ((Path.ofText f.1).parts.filter (· != "."), f.2)⟩

/-- What the names lead to. -/
def entry (d : Directory) (names : List String) : Entry :=
  match d.files.find? (·.1 == names) with
  | some f => .file f.2
  | none => if d.files.any fun f => names.isPrefixOf f.1 then .directory else .nothing

/-- What a name stands for at a place, with the names that lead there from the directory. -/
def look (d : Directory) (p : Place) (name : String) : Except FileError (Option (List String) × Entry) :=
  if Path.maxName < name.utf8ByteSize then .error .nameTooLong
  else match p with
    | .inside names => .ok (some (names ++ [name]), d.entry (names ++ [name]))
    | .outside => .ok (none, .nothing)

/-- Where a part of a path leads that is not the last. -/
def enter (d : Directory) (p : Place) (part : String) : Except FileError Place :=
  if part = "." then .ok p
  else if part = ".." then .ok p.parent
  else do
    match ← d.look p part with
    | (some names, .directory) => return .inside names
    | (_, .file _) => throw .notDirectory
    | _ => throw .notFound

/-- Follows a path to its last part: the place before it, and the name that it is. A path without
    parts and one that ends in points is that of a directory and has no name there. -/
def follow (d : Directory) (path : Path) : Except FileError (Place × Option String) := do
  let before ← path.parts.dropLast.foldlM d.enter (if path.fromRoot then .outside else .inside [])
  return (before, path.parts.getLast?.filter fun s => s != "." && s != "..")

/-- The contents of a file. -/
def read (d : Directory) (text : String) : Except FileError String := do
  let path ← Path.ofText? text
  match ← d.follow path with
  | (_, none) => throw .isDirectory
  | (before, some name) =>
    match ← d.look before name with
    | (_, .file contents) => if path.endsInSlash then throw .notDirectory else return contents
    | (_, .directory) => throw .isDirectory
    | (_, .nothing) => throw .notFound

/-- The directory after a file was written, whether it was there before or not. -/
def write (d : Directory) (text contents : String) : Except FileError Directory := do
  let path ← Path.ofText? text
  match ← d.follow path with
  | (_, none) => throw .isDirectory
  | (before, some name) =>
    if path.endsInSlash then throw .isDirectory
    match ← d.look before name with
    | (none, _) => return d
    | (some _, .directory) => throw .isDirectory
    | (some names, .file _) => return ⟨d.files.map fun f => if f.1 == names then (f.1, contents) else f⟩
    | (some names, .nothing) => return ⟨d.files ++ [(names, contents)]⟩

/-- The files that `d` has and `before` has not, with their paths. -/
def newFiles (before d : Directory) : List (String × String) :=
  (d.files.filter fun f => !before.files.any (·.1 == f.1)).map fun f => ("/".intercalate f.1, f.2)

end Directory

end SymbolicAlgebra.CommandLine
