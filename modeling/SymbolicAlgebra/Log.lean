/-
  SymbolicAlgebra.Log — notes on what happens while a program is read.

  A `Logged` computation gives a result or fails, and leaves notes in either case. The result
  never depends on the notes (`result_bind`): without them, the computation is the plain one.
-/

import SymbolicAlgebra.Expr.Render
import SymbolicAlgebra.Style.Plain

namespace SymbolicAlgebra

/-! ## Computations that leave notes -/

/-- A result or a failure, and the notes on the way to it. -/
structure Logged (ν ε β : Type) where
  notes : List ν
  result : Except ε β

namespace Logged

variable {ν ε β γ : Type}

instance : Monad (Logged ν ε) where
  pure b := ⟨[], .ok b⟩
  bind x f :=
    match x.result with
    | .ok b => ⟨x.notes ++ (f b).notes, (f b).result⟩
    | .error e => ⟨x.notes, .error e⟩

instance : MonadExceptOf ε (Logged ν ε) where
  throw e := ⟨[], .error e⟩
  tryCatch x handle :=
    match x.result with
    | .ok _ => x
    | .error e => ⟨x.notes ++ (handle e).notes, (handle e).result⟩

/-- A computation without notes. -/
instance : MonadLift (Except ε) (Logged ν ε) := ⟨fun r => ⟨[], r⟩⟩

/-- Leaves notes. -/
def tell (ns : List ν) : Logged ν ε Unit := ⟨ns, .ok ()⟩

@[simp] theorem result_pure (b : β) : (pure b : Logged ν ε β).result = .ok b := rfl

@[simp] theorem result_throw (e : ε) : (throw e : Logged ν ε β).result = .error e := rfl

@[simp] theorem result_tell (ns : List ν) : (tell ns : Logged ν ε Unit).result = .ok () := rfl

@[simp] theorem result_lift (r : Except ε β) : (liftM r : Logged ν ε β).result = r := rfl

/-- Running two computations one after the other runs their results one after the other. -/
@[simp] theorem result_bind (x : Logged ν ε β) (f : β → Logged ν ε γ) :
    (x >>= f).result = x.result >>= fun b => (f b).result := by
  obtain ⟨ns, r⟩ := x
  cases r <;> rfl

end Logged

/-! ## Notes -/

/-- The operators between two operands. -/
inductive Operator where
  | add
  | sub
  | mul
  | div
  deriving Repr, DecidableEq

def Operator.name : Operator → String
  | add => "Add"
  | sub => "Sub"
  | mul => "Mul"
  | div => "Div"

/-- One thing that happened. -/
inductive Note (α : Type) where
  /-- Two operands are about to be combined. -/
  | combining (op : Operator) (left right : Expr α)
  /-- A definition was read. -/
  | parsed (name : String)
  /-- One definition is about to be put into another. -/
  | substituting (source target : String)
  /-- A product was split into a coefficient and other factors. -/
  | split (coefficient : α) (others : Nat)
  /-- A definition has its final value. -/
  | normalized (name : String) (value : Expr α)

/-- How closely a log follows what happens. -/
inductive Level where
  | debug
  | trace
  deriving Repr, DecidableEq

namespace Note

variable {α : Type} [Scalar α]

def level : Note α → Level
  | combining .. => .trace
  | split .. => .trace
  | _ => .debug

/-- The line of the log. Expressions are in the compact form of the definition language. -/
def message : Note α → String
  | combining op left right =>
    op.name ++ " `" ++ left.render (Style.plain false) ++ "` and `" ++ right.render (Style.plain false) ++ "`"
  | parsed n => "parsed definition `" ++ n ++ "`"
  | substituting source target => "substituting `" ++ source ++ "` into `" ++ target ++ "`"
  | split coefficient others =>
    "product multiplier " ++ Scalar.text coefficient ++ " with " ++ toString others ++ " remaining factors"
  | normalized n value => "optimized definition `" ++ n ++ "`: " ++ value.render (Style.plain false)

end Note

end SymbolicAlgebra
