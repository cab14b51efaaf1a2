/-
  SymbolicAlgebra.Proofs.Calls — the calls that one step of an operation makes.

  Addition, the zero test, scaling and multiplication call one another. `Operations` are any four
  operations for a step to call, `Operations.next` is one step of each, and `Operations.unbounded` are the
  operations of the library, which do nothing but one step each (`answer_next`). For multiplication, whose
  definition names the operations that it calls, the step is `mulStep`, and `mul_eq_step` says that it is
  the same. The loops over terms, factors and cells (`addTerm`, `scaleFactors`, `foldCross`) belong to the
  step that runs them.

  Which calls a step makes is read off its outcome: a step makes a call if it has no answer when that call
  has none (`Operations.without`). A step `Asks` a list of calls if these are the calls it makes and its
  outcome depends on nothing else. Asking goes through sequence, choice and loops over lists (`AsksOnly`),
  and so every step asks finitely many calls (`asks_next`); a multiplication among them is one of smaller
  trees.
-/

import SymbolicAlgebra.Proofs.Depth
import SymbolicAlgebra.Proofs.Outcomes.Mul

namespace SymbolicAlgebra

/-! ## A plain operation as a bounded one -/

section
variable {β γ : Type}

theorem lift_bind (x : Except ArithError β) (f : β → Except ArithError γ) :
    (liftM (x >>= f) : Except Stop γ) = liftM x >>= fun b => liftM (f b) := by
  cases x <;> rfl

theorem lift_ite (p : Prop) [Decidable p] (x y : Except ArithError β) :
    (liftM (if p then x else y) : Except Stop β) = if p then liftM x else liftM y := by
  split <;> rfl

theorem lift_mapM (f : β → Except ArithError γ) (xs : List β) :
    (liftM (xs.mapM f) : Except Stop (List γ)) = xs.mapM fun x => liftM (f x) := by
  induction xs with
  | nil => rfl
  | cons x xs ih =>
    simp only [List.mapM_cons, lift_bind, ih]
    rfl

theorem lift_foldlM (f : γ → β → Except ArithError γ) (s : γ) (xs : List β) :
    (liftM (xs.foldlM f s) : Except Stop γ) = xs.foldlM (fun s x => liftM (f s x)) s := by
  induction xs generalizing s with
  | nil => rfl
  | cons x xs ih => simp only [List.foldlM_cons, lift_bind, ih]

theorem lift_ne_outOfSteps (x : Except ArithError β) : (liftM x : Except Stop β) ≠ .error .outOfSteps := by
  cases x <;> exact nofun

theorem lift_injective : Function.Injective (liftM : Except ArithError β → Except Stop β) := by
  intro x y h
  cases x <;> cases y <;> cases h <;> rfl

end

namespace Expr

variable {α : Type}

/-- What an operation is asked for. -/
inductive Call (α : Type) where
  | add (a b : Expr α)
  | isZero (e : Expr α)
  | scale (v : α) (e : Expr α)
  | mul (a b : Expr α)

namespace Call

/-- What a call is answered with. -/
def Answer : Call α → Type
  | .isZero _ => Bool
  | _ => Expr α

/-- The number of nodes that a multiplication has before it; none for the other operations. -/
def nodes : Call α → Nat
  | .mul a b => a.size + b.size
  | _ => 0

/-- Not a multiplication. -/
def Additive (c : Call α) : Prop := c.nodes = 0

/-- Not a multiplication, unless of fewer nodes. -/
def Below (k : Nat) (c : Call α) : Prop := c.nodes < k

end Call

/-- The operations that a step may call. -/
structure Operations (α : Type) extends Calls α where
  mul : Expr α → Expr α → Except Stop (Expr α)

namespace Operations

section
variable {β γ : Type} (ops : Operations α)

def answer : (c : Call α) → Except Stop c.Answer
  | .add a b => ops.add a b
  | .isZero e => ops.isZero e
  | .scale v e => ops.scale v e
  | .mul a b => ops.mul a b

open Classical in
/-- The operations, but for one call that has no answer. -/
noncomputable def without (c : Call α) : Operations α where
  add a b := if c = .add a b then .error .outOfSteps else ops.add a b
  isZero e := if c = .isZero e then .error .outOfSteps else ops.isZero e
  scale v e := if c = .scale v e then .error .outOfSteps else ops.scale v e
  mul a b := if c = .mul a b then .error .outOfSteps else ops.mul a b

theorem answer_without_self (c : Call α) : (ops.without c).answer c = .error .outOfSteps := by
  cases c <;> exact if_pos rfl

theorem answer_without {c d : Call α} (h : d ≠ c) : (ops.without c).answer d = ops.answer d := by
  cases d <;> exact if_neg h.symm

/-! ## What a run asks -/

/-- The run makes the calls `cs`: it needs to know no other answers, and stops when one of these is
    missing. A call that is made again has the same answer, so it is listed once. -/
structure Asks (run : Operations α → Except Stop β) (cs : List (Call α)) : Prop where
  same {ops' : Operations α} : (∀ c ∈ cs, ops'.answer c = ops.answer c) → run ops' = run ops
  stops {c : Call α} : c ∈ cs → run (ops.without c) = .error .outOfSteps

variable {ops}

theorem Asks.pure (x : Except Stop β) : ops.Asks (fun _ => x) [] := ⟨fun _ => rfl, fun h => nomatch h⟩

theorem Asks.without {run : Operations α → Except Stop β} {cs : List (Call α)} (h : ops.Asks run cs) {c : Call α}
    (hc : c ∉ cs) : run (ops.without c) = run ops :=
  h.same fun _ hd => answer_without ops fun e => hc (e ▸ hd)

/-- A run that goes on with the outcome of another one, and stops if that stops. -/
theorem Asks.after {x : Operations α → Except Stop β} {f : Except Stop β → Operations α → Except Stop γ}
    {cs ds : List (Call α)} (hx : ops.Asks x cs) (hf : ops.Asks (f (x ops)) ds)
    (hstop : ∀ ops', f (.error .outOfSteps) ops' = .error .outOfSteps) :
    ops.Asks (fun ops' => f (x ops') ops') (cs ++ ds) := by
  constructor
  · intro ops' h
    obtain ⟨hcs, hds⟩ := List.forall_mem_append.mp h
    show f (x ops') ops' = _
    rw [hx.same hcs, hf.same hds]
  · intro c hc
    show f (x (ops.without c)) (ops.without c) = _
    by_cases hcs : c ∈ cs
    · rw [hx.stops hcs, hstop]
    · rw [hx.without hcs]
      exact hf.stops ((List.mem_append.mp hc).resolve_left hcs)

/-- The run makes finitely many calls, all of one sort. -/
def AsksOnly (P : Call α → Prop) (ops : Operations α) (run : Operations α → Except Stop β) : Prop :=
  ∃ cs : List (Call α), (∀ c ∈ cs, P c) ∧ ops.Asks run cs

namespace AsksOnly

variable {P Q : Call α → Prop} {x y : Operations α → Except Stop β}

theorem pure (x : Except Stop β) : AsksOnly P ops fun _ => x := ⟨[], List.forall_mem_nil P, Asks.pure x⟩

theorem imp (h : AsksOnly P ops x) (hQ : ∀ c, P c → Q c) : AsksOnly Q ops x := by
  obtain ⟨cs, hcs, hx⟩ := h
  exact ⟨cs, fun c hc => hQ c (hcs c hc), hx⟩

theorem answer {c : Call α} (h : P c) : AsksOnly P ops fun ops => ops.answer c := by
  refine ⟨[c], List.forall_mem_singleton.mpr h, ⟨fun h => h c (List.mem_singleton.mpr rfl), ?_⟩⟩
  intro d hd
  cases List.mem_singleton.mp hd
  exact answer_without_self ops c

theorem after {f : Except Stop β → Operations α → Except Stop γ} (hx : AsksOnly P ops x) (hf : AsksOnly P ops (f (x ops)))
    (hstop : ∀ ops, f (.error .outOfSteps) ops = .error .outOfSteps) : AsksOnly P ops fun ops => f (x ops) ops := by
  obtain ⟨cs, hcs, hx⟩ := hx
  obtain ⟨ds, hds, hf⟩ := hf
  exact ⟨cs ++ ds, List.forall_mem_append.mpr ⟨hcs, hds⟩, hx.after hf hstop⟩

theorem bind {f : Operations α → β → Except Stop γ} (hx : AsksOnly P ops x) (hf : ∀ b, AsksOnly P ops fun ops => f ops b) :
    AsksOnly P ops fun ops => x ops >>= f ops := by
  refine hx.after (f := fun r ops => r >>= f ops) ?_ fun _ => rfl
  cases x ops with
  | ok b => exact hf b
  | error e => exact pure (.error e)

theorem ite {p : Prop} [Decidable p] (hx : AsksOnly P ops x) (hy : AsksOnly P ops y) :
    AsksOnly P ops fun ops => if p then x ops else y ops := by
  split
  · exact hx
  · exact hy

theorem mapM {f : Operations α → β → Except Stop γ} {xs : List β} (h : ∀ x ∈ xs, AsksOnly P ops fun ops => f ops x) :
    AsksOnly P ops fun ops => xs.mapM (f ops) := by
  induction xs with
  | nil => exact pure _
  | cons x xs ih =>
    obtain ⟨hx, hxs⟩ := List.forall_mem_cons.mp h
    simp only [List.mapM_cons]
    exact hx.bind fun y => (ih hxs).bind fun ys => pure _

theorem foldlM {f : Operations α → γ → β → Except Stop γ} {xs : List β}
    (h : ∀ s, ∀ x ∈ xs, AsksOnly P ops fun ops => f ops s x) (s : γ) : AsksOnly P ops fun ops => xs.foldlM (f ops) s := by
  induction xs generalizing s with
  | nil => exact pure _
  | cons x xs ih =>
    simp only [List.foldlM_cons]
    exact (h s x List.mem_cons_self).bind fun s => ih (fun s y hy => h s y (List.mem_cons_of_mem _ hy)) s

theorem anyM {f : Operations α → β → Except Stop Bool} {xs : List β} (h : ∀ x ∈ xs, AsksOnly P ops fun ops => f ops x) :
    AsksOnly P ops fun ops => xs.anyM (f ops) := by
  induction xs with
  | nil => exact pure _
  | cons x xs ih =>
    obtain ⟨hx, hxs⟩ := List.forall_mem_cons.mp h
    simp only [List.anyM]
    refine hx.bind fun b => ?_
    cases b with
    | true => exact pure _
    | false => exact ih hxs

theorem allM {f : Operations α → β → Except Stop Bool} {xs : List β} (h : ∀ x ∈ xs, AsksOnly P ops fun ops => f ops x) :
    AsksOnly P ops fun ops => xs.allM (f ops) := by
  induction xs with
  | nil => exact pure _
  | cons x xs ih =>
    obtain ⟨hx, hxs⟩ := List.forall_mem_cons.mp h
    simp only [List.allM]
    refine hx.bind fun b => ?_
    cases b with
    | true => exact ih hxs
    | false => exact pure _

theorem below (h : AsksOnly Call.Additive ops x) {k : Nat} (hk : 0 < k) : AsksOnly (Call.Below k) ops x :=
  h.imp fun _ hc => Nat.lt_of_le_of_lt (Nat.le_of_eq hc) hk

end AsksOnly

theorem asks_add (a b : Expr α) : AsksOnly Call.Additive ops fun ops => ops.add a b := .answer (c := .add a b) rfl

theorem asks_isZero (e : Expr α) : AsksOnly Call.Additive ops fun ops => ops.isZero e := .answer (c := .isZero e) rfl

theorem asks_scale (v : α) (e : Expr α) : AsksOnly Call.Additive ops fun ops => ops.scale v e :=
  .answer (c := .scale v e) rfl

theorem asks_mul {k : Nat} {a b : Expr α} (h : a.size + b.size < k) : AsksOnly (Call.Below k) ops fun ops => ops.mul a b :=
  .answer (c := .mul a b) h

end

/-! ## One multiplication -/

section
variable [Scalar α] (ops : Operations α)

/-- Adds the product of two cells to those before it, unless one of the cells is zero. -/
def addCells (s : Expr α) (p : Expr α × Expr α) : Except Stop (Expr α) := do
  if ← ops.isZero p.1 then return s
  else if ← ops.isZero p.2 then return s
  else ops.add s (← ops.mul p.1 p.2)

/-- Folds a term into the first of the terms so far that it cancels or makes one node with, and puts it
    at the end otherwise. -/
def foldCross (t : Expr α) : List (Expr α) → Except Stop (List (Expr α))
  | [] => do if ← ops.isZero t then return [] else return [t]
  | x :: xs => do
    let c ← ops.add x t
    if ← ops.isZero c then return xs
    else match c with
      | .sum _ => return x :: (← foldCross t xs)
      | c => return c :: xs

/-- A grid times a value that is none: cell by cell if that is a single number, and a product of both
    otherwise. -/
def gridTimes (g : Grid (Expr α)) (b : Expr α) : Except Stop (Expr α) := do
  if (← b.shape).isScalar then return .matrix { g with cells := ← g.cells.mapM fun cell => ops.mul cell b }
  else chain (.matrix g) b

def timesGrid (a : Expr α) (g : Grid (Expr α)) : Except Stop (Expr α) := do
  if (← a.shape).isScalar then return .matrix { g with cells := ← g.cells.mapM fun cell => ops.mul a cell }
  else chain a (.matrix g)

/-- One multiplication. -/
def mulStep (a b : Expr α) : Except Stop (Expr α) :=
  match a, b with
  | .matrix g, .matrix h =>
    if g.cols = h.rows then do
      let cells ← (Shape.places ⟨g.rows, h.cols⟩).mapM fun p =>
        ((g.row p.1).zip (h.transpose.row p.2)).foldlM ops.addCells (.const 0)
      return .matrix ⟨g.rows, h.cols, cells⟩
    else throw (.refused (.dimensionMismatch .mul g.shape h.shape))
  | .matrix g, b => ops.gridTimes g b
  | a, .matrix h => ops.timesGrid a h
  | .const v, b => ops.scale v b
  | .var m, b =>
    match b with
    | .const v => return ofMonomial { m with quantity := m.quantity * v }
    | .var n => return mulMonomials m n
    | .sum ts => do ops.sumOf (← ts.mapM fun t => ops.mul (ofMonomial m) t)
    | b => prependFactor (ofMonomial m) b.factors
  | .sum ts, b =>
    match b with
    | .sum us => do
      return ofTerms (← ts.foldlM (fun done t => us.foldlM (fun done u => do ops.foldCross (← ops.mul t u) done) done) [])
    | b => do ops.sumOf (← ts.mapM fun t => ops.mul t b)
  | .product fs, b =>
    match b with
    | .const v => return mulConstant v fs
    | .sum ts => do ops.sumOf (← ts.mapM fun t => ops.mul (.product fs) t)
    | b => checkedProduct (fs ++ b.factors)

/-- One step of each operation. -/
def next : Operations α := ⟨ops.toCalls.next, ops.mulStep⟩

/-- The operations of the library. -/
def unbounded : Operations α := ⟨Calls.unbounded, fun a b => liftM (a.mul b)⟩

end

section
variable [Scalar α]

theorem lift_sumOf (ts : List (Expr α)) : liftM (Expr.sumOf ts) = unbounded.sumOf ts := by
  cases ts with
  | nil => rfl
  | cons t ts => exact lift_foldlM Expr.add t ts

theorem lift_foldCross (t : Expr α) (ts : List (Expr α)) : liftM (Expr.foldCross t ts) = unbounded.foldCross t ts := by
  induction ts with
  | nil =>
    unfold Expr.foldCross foldCross
    show _ = (if t.isZero then _ else _)
    split <;> rfl
  | cons x xs ih =>
    unfold Expr.foldCross foldCross
    rw [lift_bind]
    refine bind_congr fun c => ?_
    rw [lift_ite]
    refine ite_congr rfl (fun _ => rfl) fun _ => ?_
    cases c with
    | sum _ =>
      rw [lift_bind, ih]
      rfl
    | _ => rfl

theorem lift_rowByColumn (xs ys : List (Expr α)) :
    liftM ((xs.attach.zip ys.attach).foldlM (fun cell p => if p.1.1.isZero || p.2.1.isZero then return cell
      else do cell.add (← Expr.mul p.1.1 p.2.1)) (const 0)) = (xs.zip ys).foldlM unbounded.addCells (const 0) := by
  rw [← map_zip_attach xs ys, List.foldlM_map, lift_foldlM]
  congr 1
  funext cell p
  rw [lift_ite, lift_bind]
  show _ = (if p.1.1.isZero then _ else if p.2.1.isZero then _ else _)
  cases p.1.1.isZero <;> cases p.2.1.isZero <;> rfl

theorem lift_gridTimes (g : Grid (Expr α)) (b : Expr α) :
    (liftM (do
      if (← b.shape).isScalar then return matrix { g with cells := ← g.cells.mapM fun cell => cell.mul b }
      else chain (matrix g) b : Except ArithError (Expr α)) : Except Stop (Expr α)) = unbounded.gridTimes g b := by
  simp only [lift_bind, lift_ite, lift_mapM]
  rfl

theorem lift_timesGrid (a : Expr α) (g : Grid (Expr α)) :
    (liftM (do
      if (← a.shape).isScalar then return matrix { g with cells := ← g.cells.mapM fun cell => a.mul cell }
      else chain a (matrix g) : Except ArithError (Expr α)) : Except Stop (Expr α)) = unbounded.timesGrid a g := by
  simp only [lift_bind, lift_ite, lift_mapM]
  rfl

/-- A multiplication is one step that may call further operations. -/
theorem mul_eq_step (a b : Expr α) : liftM (a.mul b) = unbounded.mulStep a b := by
  unfold Expr.mul mulStep
  cases a with
  | matrix g =>
    cases b with
    | matrix h =>
      dsimp only
      rw [lift_ite, lift_bind, lift_mapM]
      simp only [lift_rowByColumn]
      rfl
    | _ => exact lift_gridTimes g _
  | const v =>
    cases b with
    | matrix h => exact lift_timesGrid _ h
    | _ => rfl
  | var m =>
    cases b with
    | matrix h => exact lift_timesGrid _ h
    | sum ts =>
      simp only [lift_bind, lift_mapM, lift_sumOf]
      rfl
    | _ => rfl
  | sum ts =>
    cases b with
    | matrix h => exact lift_timesGrid _ h
    | sum us =>
      simp only [lift_bind, lift_foldlM, lift_foldCross]
      rfl
    | _ =>
      simp only [lift_bind, lift_mapM, lift_sumOf]
      rfl
  | product fs =>
    cases b with
    | matrix h => exact lift_timesGrid _ h
    | sum ts =>
      simp only [lift_bind, lift_mapM, lift_sumOf]
      rfl
    | _ => rfl

/-- The operations of the library make one step each, and call nothing but themselves. -/
theorem answer_next (c : Call α) : unbounded.next.answer c = unbounded.answer c := by
  cases c with
  | add a b => exact (add_eq_step a b).symm
  | isZero e => exact (isZero_eq_step e).symm
  | scale v e => exact (scale_eq_step v e).symm
  | mul a b => exact (mul_eq_step a b).symm

theorem answer_ne_outOfSteps (c : Call α) : unbounded.answer c ≠ .error .outOfSteps := by
  cases c with
  | add a b => exact lift_ne_outOfSteps _
  | isZero e => exact nofun
  | scale v e => exact lift_ne_outOfSteps _
  | mul a b => exact lift_ne_outOfSteps _

end

/-! ## What one step asks -/

section
variable {ops : Operations α}

theorem asks_offer (t : Expr α) (ns : List String) (ts : List (Expr α)) :
    AsksOnly Call.Additive ops fun ops => ops.offer t ns ts := by
  induction ts with
  | nil => exact .pure _
  | cons x xs ih =>
    unfold Calls.offer
    refine .ite (ih.bind fun o => ?_) ((asks_add x t).bind fun c => ?_)
    · cases o <;> exact .pure _
    · cases c with
      | sum ms =>
        refine ih.bind fun o => ?_
        cases o <;> exact .pure _
      | _ => exact (asks_isZero _).bind fun _ => .pure _

theorem asks_addTerm (ts : List (Expr α)) (t : Expr α) : AsksOnly Call.Additive ops fun ops => ops.addTerm ts t := by
  unfold Calls.addTerm
  refine (asks_isZero t).bind fun _ => .ite (.pure _) ((asks_offer t _ ts).bind fun o => ?_)
  cases o <;> exact .pure _

/-- A grid with a call for every cell. -/
theorem asks_cells {P : Call α → Prop} {f : Operations α → Expr α → Except Stop (Expr α)} {g : Grid (Expr α)}
    (h : ∀ x ∈ g.cells, AsksOnly P ops fun ops => f ops x) :
    AsksOnly P ops fun ops => (do return matrix (← g.mapM (f ops))) := by
  unfold Grid.mapM
  simp only [bind_assoc, pure_bind]
  exact (AsksOnly.mapM h).bind fun _ => .pure _

theorem asks_addToGrid (g : Grid (Expr α)) (b : Expr α) : AsksOnly Call.Additive ops fun ops => ops.addToGrid g b :=
  (AsksOnly.pure _).bind fun _ => .ite (asks_cells fun x _ => asks_add x b) (.ite (.pure _) (.pure _))

theorem asks_addGridTo (a : Expr α) (g : Grid (Expr α)) : AsksOnly Call.Additive ops fun ops => ops.addGridTo a g :=
  (AsksOnly.pure _).bind fun _ => .ite (asks_cells fun x _ => asks_add a x) (.ite (.pure _) (.pure _))

theorem asks_unlessZero {x : Operations α → Except Stop (Expr α)} (a b : Expr α) (hx : AsksOnly Call.Additive ops x) :
    AsksOnly Call.Additive ops fun ops => (do if ← ops.isZero b then return a else x ops) :=
  (asks_isZero b).bind fun _ => .ite (.pure _) hx

theorem asks_addUnlike (a b : Expr α) : AsksOnly Call.Additive ops fun ops => ops.addUnlike a b :=
  asks_unlessZero a b (.pure _)

/-- The one place where a failure is not passed on: a sum that is refused cancels nothing. A missing
    answer is passed on even there. -/
theorem asks_cancels (x t : Expr α) : AsksOnly Call.Additive ops fun ops => ops.cancels x t := by
  refine (asks_add x t).after (f := fun r ops => Calls.cancels ⟨fun _ _ => r, ops.isZero, ops.scale⟩ x t) ?_ fun _ => rfl
  cases ops.add x t with
  | ok r =>
    cases r with
    | sum _ => exact .pure _
    | _ => exact asks_isZero _
  | error e => cases e <;> exact .pure _

theorem asks_cancelFirst? (t : Expr α) (kept : List (Expr α)) :
    AsksOnly Call.Additive ops fun ops => ops.cancelFirst? t kept := by
  induction kept with
  | nil => exact .pure _
  | cons x xs ih => exact (asks_cancels x t).bind fun _ => .ite (.pure _) (ih.bind fun _ => .pure _)

theorem asks_keep (kept : List (Expr α)) (t : Expr α) : AsksOnly Call.Additive ops fun ops => ops.keep kept t := by
  refine (asks_cancelFirst? t kept).bind fun o => ?_
  cases o with
  | some rest => exact .pure _
  | none => exact (asks_isZero t).bind fun _ => .pure _

theorem asks_foldCross (t : Expr α) (ts : List (Expr α)) : AsksOnly Call.Additive ops fun ops => ops.foldCross t ts := by
  induction ts with
  | nil => exact (asks_isZero t).bind fun _ => .pure _
  | cons x xs ih =>
    refine (asks_add x t).bind fun c => (asks_isZero c).bind fun _ => .ite (.pure _) ?_
    cases c with
    | sum _ => exact ih.bind fun _ => .pure _
    | _ => exact .pure _

theorem asks_addCells {k : Nat} (s : Expr α) {x y : Expr α} (h : x.size + y.size < k) :
    AsksOnly (Call.Below k) ops fun ops => ops.addCells s (x, y) := by
  have hk : 0 < k := Nat.zero_lt_of_lt h
  refine ((asks_isZero x).below hk).bind fun _ => .ite (.pure _) ?_
  refine ((asks_isZero y).below hk).bind fun _ => .ite (.pure _) ?_
  exact (asks_mul h).bind fun z => (asks_add s z).below hk

theorem asks_gridTimes (g : Grid (Expr α)) (b : Expr α) :
    AsksOnly (Call.Below ((matrix g).size + b.size)) ops fun ops => ops.gridTimes g b := by
  refine (AsksOnly.pure _).bind fun _ => .ite ((AsksOnly.mapM fun c hc => asks_mul ?_).bind fun _ => .pure _) (.pure _)
  exact Nat.add_lt_add_right (size_cell_lt hc) _

theorem asks_timesGrid (a : Expr α) (g : Grid (Expr α)) :
    AsksOnly (Call.Below (a.size + (matrix g).size)) ops fun ops => ops.timesGrid a g := by
  refine (AsksOnly.pure _).bind fun _ => .ite ((AsksOnly.mapM fun c hc => asks_mul ?_).bind fun _ => .pure _) (.pure _)
  exact Nat.add_lt_add_left (size_cell_lt hc) _

variable [Scalar α]

theorem asks_addToSum (ts : List (Expr α)) (b : Expr α) : AsksOnly Call.Additive ops fun ops => ops.addToSum ts b := by
  unfold Calls.addToSum
  refine (AsksOnly.pure _).bind fun left => (AsksOnly.pure _).bind fun right => .ite (.pure _) ?_
  cases b with
  | sum us => exact (AsksOnly.foldlM (fun ts u _ => asks_addTerm ts u) ts).bind fun _ => .pure _
  | _ => exact (asks_addTerm ts _).bind fun _ => .pure _

theorem asks_scaleFactor (v : α) (f : Expr α) : AsksOnly Call.Additive ops fun ops => ops.scaleFactor v f := by
  cases f with
  | matrix g => exact .ite (.pure _) (.ite (.pure _) (asks_cells fun x _ => asks_scale v x))
  | _ => exact asks_scale v _

theorem asks_scaleFactors (v : α) (fs : List (Expr α)) : AsksOnly Call.Additive ops fun ops => ops.scaleFactors v fs := by
  refine .ite (.pure _) ?_
  rcases fs with _ | ⟨f, _ | ⟨g, fs⟩⟩
  · exact .pure _
  · exact asks_scaleFactor v f
  · exact .pure _

theorem asks_addProducts (fs gs : List (Expr α)) : AsksOnly Call.Additive ops fun ops => ops.addProducts fs gs :=
  .ite (asks_scaleFactors _ _) (.pure _)

theorem asks_addStep (a b : Expr α) : AsksOnly Call.Additive ops fun ops => ops.addStep a b := by
  cases a with
  | const v =>
    cases b with
    | matrix g => exact asks_addGridTo _ g
    | const w => exact .ite (.pure _) (.pure _)
    | sum ts => exact .ite (.pure _) (asks_addToSum ts _)
    | var _ | product _ => exact .ite (.pure _) (asks_addUnlike _ _)
  | var m =>
    cases b with
    | matrix g => exact asks_addGridTo _ g
    | var n => exact .ite (.pure _) (asks_addUnlike _ _)
    | sum ts => exact asks_addToSum ts _
    | const _ | product _ => exact asks_addUnlike _ _
  | sum ts =>
    cases b with
    | matrix g => exact asks_addGridTo _ g
    | _ => exact asks_addToSum ts _
  | product fs =>
    cases b with
    | matrix g => exact asks_addGridTo _ g
    | sum ts => exact asks_unlessZero _ _ (asks_addToSum ts _)
    | product gs => exact asks_unlessZero _ _ (asks_addProducts fs gs)
    | const _ | var _ => exact asks_unlessZero _ _ (.pure _)
  | matrix g =>
    cases b with
    | matrix h =>
      refine .ite ?_ (.pure _)
      unfold Grid.zipM
      simp only [bind_assoc, pure_bind]
      exact (AsksOnly.mapM fun p _ => asks_add p.1 p.2).bind fun _ => .pure _
    | _ => exact asks_addToGrid g _

theorem asks_isZeroStep (e : Expr α) : AsksOnly Call.Additive ops fun ops => ops.isZeroStep e := by
  cases e with
  | const v => exact .pure _
  | var m => exact .pure _
  | sum ts => exact (AsksOnly.foldlM (fun kept t _ => asks_keep kept t) []).bind fun _ => .pure _
  | product fs => exact .anyM fun f _ => asks_isZero f
  | matrix g => exact .allM fun c _ => asks_isZero c

theorem asks_sumOf (ts : List (Expr α)) : AsksOnly Call.Additive ops fun ops => ops.sumOf ts := by
  cases ts with
  | nil => exact .pure _
  | cons t ts => exact AsksOnly.foldlM (fun s x _ => asks_add s x) t

theorem asks_scaleStep (v : α) (e : Expr α) : AsksOnly Call.Additive ops fun ops => ops.scaleStep v e := by
  cases e with
  | matrix g => exact asks_cells fun x _ => asks_scale v x
  | const w => exact .ite (.pure _) (.ite (.pure _) (.pure _))
  | sum ts =>
    refine .ite (.pure _) (.ite (.pure _) (.ite (.pure _) ?_))
    exact (AsksOnly.mapM fun t _ => asks_scale v t).bind fun us => asks_sumOf us
  | var _ | product _ => exact .ite (.pure _) (.ite (.pure _) (.ite (.pure _) (.pure _)))

/-- A product for every term, and the sum of the products. -/
theorem asks_sumOf_products {k : Nat} {ts : List (Expr α)} {l r : Expr α → Expr α} (hk : 0 < k)
    (h : ∀ t ∈ ts, (l t).size + (r t).size < k) :
    AsksOnly (Call.Below k) ops fun ops => (do ops.sumOf (← ts.mapM fun t => ops.mul (l t) (r t))) :=
  (AsksOnly.mapM fun t ht => asks_mul (h t ht)).bind fun us => (asks_sumOf us).below hk

theorem asks_mulStep (a b : Expr α) : AsksOnly (Call.Below (a.size + b.size)) ops fun ops => ops.mulStep a b := by
  have hpos : 0 < a.size + b.size := Nat.add_pos_left a.size_pos _
  unfold mulStep
  cases a with
  | matrix g =>
    cases b with
    | matrix h =>
      refine .ite ((AsksOnly.mapM fun p _ => .foldlM (fun s q hq => asks_addCells s ?_) _).bind fun _ => .pure _) (.pure _)
      obtain ⟨hx, hy⟩ := List.of_mem_zip hq
      exact Nat.add_lt_add (size_cell_lt (Grid.mem_cells_of_mem_row hx))
        (size_cell_lt (Grid.mem_cells_of_mem_transpose (Grid.mem_cells_of_mem_row hy)))
    | _ => exact asks_gridTimes g _
  | const v =>
    cases b with
    | matrix h => exact asks_timesGrid _ h
    | _ => exact (asks_scale v _).below hpos
  | var m =>
    cases b with
    | matrix h => exact asks_timesGrid _ h
    | sum ts =>
      refine asks_sumOf_products hpos fun t ht => ?_
      rw [size_ofMonomial, size]
      exact Nat.add_lt_add_left (size_term_lt ht) 1
    | _ => exact .pure _
  | sum ts =>
    cases b with
    | matrix h => exact asks_timesGrid _ h
    | sum us =>
      refine (AsksOnly.foldlM (fun done t ht => .foldlM (fun done u hu => ?_) done) []).bind fun _ => .pure _
      exact (asks_mul (Nat.add_lt_add (size_term_lt ht) (size_term_lt hu))).bind fun z => (asks_foldCross z done).below hpos
    | _ =>
      exact asks_sumOf_products (r := fun _ => _) hpos fun t ht => Nat.add_lt_add_right (size_term_lt ht) _
  | product fs =>
    cases b with
    | matrix h => exact asks_timesGrid _ h
    | sum ts =>
      exact asks_sumOf_products hpos fun t ht => Nat.add_lt_add_left (size_term_lt ht) _
    | _ => exact .pure _

/-- One step makes finitely many calls, and multiplies nothing but smaller trees. -/
theorem asks_next (c : Call α) :
    AsksOnly (fun d => d.nodes < c.nodes ∨ d.Additive ∧ c.Additive) ops fun ops => ops.next.answer c := by
  cases c with
  | add a b => exact (asks_addStep a b).imp fun _ hd => Or.inr ⟨hd, rfl⟩
  | isZero e => exact (asks_isZeroStep e).imp fun _ hd => Or.inr ⟨hd, rfl⟩
  | scale v e => exact (asks_scaleStep v e).imp fun _ hd => Or.inr ⟨hd, rfl⟩
  | mul a b => exact (asks_mulStep a b).imp fun _ hd => Or.inl hd

end

end Operations

end Expr

end SymbolicAlgebra
