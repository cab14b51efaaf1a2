/-
  SymbolicAlgebra.Program — definitions and what they come down to.

  A program is read definition by definition. Then every definition is put into every other
  one that mentions it, once for each pair, in the order of the names: first the one that is
  put in, then the one it goes into. What is put in is the value that the definition has by
  then. Last, each value is normalized, and must have a shape.

  A definition must not mention its own name, and no name may be defined twice. Longer cycles
  are allowed; their names stay in the values.
-/

import SymbolicAlgebra.EditDistance
import SymbolicAlgebra.Expr.Normalize
import SymbolicAlgebra.Expr.Substitute
import SymbolicAlgebra.Source.Parser

namespace SymbolicAlgebra

/-- The final values of all definitions, in the order of the names. -/
structure Program (α : Type) where
  definitions : List (String × Expr α)

namespace Program

variable {α : Type}

/-! ## Looking up -/

/-- A name that a program does not define, and the defined names that are nearly the same. -/
structure UnknownName where
  name : String
  similar : List String
  deriving Repr, DecidableEq

/-- The sentence that reports an unknown name. -/
def UnknownName.message (u : UnknownName) : String :=
  let quoted := u.similar.map fun n => "`" ++ n ++ "`"
  "unknown symbol `" ++ u.name ++ "`" ++
    if u.similar.isEmpty then "" else "; did you mean " ++ ", ".intercalate quoted ++ "?"

/-- The defined names, in order. -/
def names (p : Program α) : List String := p.definitions.map (·.1)

/-- The defined names that one change at most turns into the given one. -/
def similarNames (p : Program α) (name : String) : List String :=
  p.names.filter fun n => EditDistance.between n.toList name.toList < 2

/-- The value of a definition. -/
def get (p : Program α) (name : String) : Except UnknownName (Expr α) :=
  match p.definitions.find? (·.1 == name) with
  | some (_, value) => .ok value
  | none => .error ⟨name, p.similarNames name⟩

variable [Scalar α]

/-! ## Writing -/

/-- One definition, written in a style. -/
def renderDefinition (p : Program α) (s : Style α) (name : String) : Except UnknownName String := do
  return s.assign name ((← p.get name).render s)

/-- All definitions in order, written in a style. -/
def render (p : Program α) (s : Style α) : String :=
  String.join (p.definitions.map fun (name, value) => s.assign name (value.render s))

/-! ## Reading the definitions -/

/-- The definition can stand beside those before it. -/
def checkDefinition (before : List (Definition α)) (d : Definition α) : Except Problem Unit :=
  match before.find? (·.name == d.name) with
  | some first => throw ⟨.duplicateDefinition d.name, [first.span, d.nameSpan]⟩
  | none =>
    if d.value.freeNames.contains d.name then throw ⟨.selfReference d.name, [d.span]⟩
    else return ()

/-- Reads definitions up to the end of the source, at most so many. -/
def readDefinitions : Nat → List (Definition α) → Cursor → Reading α (List (Definition α))
  | 0, done, _ => return done
  | n + 1, done, c => do
    if c.atEnd then return done
    else
      let (d, c) ← Grammar.definition c
      Logged.tell [.parsed d.name]
      checkDefinition done d
      readDefinitions n (done ++ [d]) c

/-- Puts a definition into a list in the order of the names. -/
def insertByName (d : Definition α) : List (Definition α) → List (Definition α)
  | [] => [d]
  | e :: es => if d.name < e.name then d :: e :: es else e :: insertByName d es

/-- The definitions in the order of their names. -/
def sortByName (ds : List (Definition α)) : List (Definition α) := ds.foldr insertByName []

/-! ## Resolving names -/

/-- A value that cannot be computed is a problem of the whole definition. -/
def blame {β : Type} (d : Definition α) : Except ArithError β → Except Problem β
  | .ok r => .ok r
  | .error e => .error ⟨.invalidExpression e, [d.span]⟩

/-- Puts `source` in the place of its name in one definition. -/
def substituteInto (source target : Definition α) : Reading α (Definition α) := do
  if target.name != source.name && target.value.freeNames.contains source.name then
    Logged.tell [.substituting source.name target.name]
    let value ← blame target (target.value.substitute source.name source.value)
    return { target with value := value }
  else return target

/-- Puts the definition of one name into all others. -/
def eliminate (ds : List (Definition α)) (name : String) : Reading α (List (Definition α)) :=
  match ds.find? (·.name == name) with
  | some source => ds.mapM (substituteInto source)
  | none => return ds

/-- Puts every definition into all others, one after the other. -/
def resolve (ds : List (Definition α)) : Reading α (List (Definition α)) :=
  (ds.map (·.name)).foldlM eliminate ds

/-- Brings a definition to its final value. -/
def finish (d : Definition α) : Reading α (String × Expr α) := do
  Logged.tell (d.value.normalizeNotes.map fun (v, n) => .split v n)
  let value ← blame d d.value.normalize
  let _ ← blame d value.shape
  Logged.tell [.normalized d.name value]
  return (d.name, value)

/-- Reads a program, with notes on the way. -/
def read (source : String) : Reading α (Program α) := do
  let c := (Parser.ofSource source).cursor
  let ds ← readDefinitions c.rest.length [] c
  let ds ← resolve (sortByName ds)
  return ⟨← ds.mapM finish⟩

/-- Reads a program. -/
def parse (source : String) : Except Problem (Program α) := (read source).result

end Program

end SymbolicAlgebra
