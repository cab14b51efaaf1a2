/-
  SymbolicAlgebra.Proofs.Refusals.Zeros — where the arithmetic adds a zero to a sum of matrices.

  A sum compares its shape with that of what is added to it before it asks whether this is zero, and a
  value that comes out as zero is a single number, whatever shape it would have had. So a zero is refused
  by a sum of matrices (`Call.losesZero`). `Call.AddsZero` says that a call leads to such an addition, by the
  calls that it makes and those that these make.

  Operations that have no answer for such an addition (`Operations.careful`) find out whether a call leads
  to one: then they have no answer for that call either (`AddsZero.stops`).
-/

import SymbolicAlgebra.Proofs.Termination

namespace SymbolicAlgebra.Expr

variable {α : Type} [Scalar α]

namespace Call

/-- A zero is added to a sum of matrices. -/
def losesZero : Call α → Bool
  | .add (.sum ts) (.const v) => Scalar.nearZero v && decide ((Expr.sum ts).shape ≠ .ok .scalar)
  | _ => false

/-- The call leads to the addition of a zero to a sum of matrices. -/
def AddsZero (c : Call α) : Prop := ∃ d, Relation.ReflTransGen Makes c d ∧ d.losesZero = true

theorem addsZero_of_losesZero {c : Call α} (h : c.losesZero = true) : c.AddsZero := ⟨c, .refl, h⟩

theorem AddsZero.of_makes {c d : Call α} (hd : c.Makes d) (h : d.AddsZero) : c.AddsZero := by
  obtain ⟨z, hz, hzero⟩ := h
  exact ⟨z, .head hd hz, hzero⟩

end Call

namespace Operations

/-- The operations, with calls that nest at most so deep and no answer where a zero is added to a sum of
    matrices. -/
def careful : Nat → Operations α
  | 0 => upTo 0
  | n + 1 => { (careful n).next with
      add := fun a b => if Call.losesZero (.add a b) then .error .outOfSteps else (careful n).next.add a b }

theorem answer_careful_succ (n : Nat) (c : Call α) :
    (careful (n + 1)).answer c = .error .outOfSteps ∨ (careful (n + 1)).answer c = (careful n).next.answer c := by
  cases c with
  | add a b =>
    by_cases h : Call.losesZero (.add a b) = true
    · exact Or.inl (if_pos h)
    · exact Or.inr (if_neg h)
  | _ => exact Or.inr rfl

/-- Operations that answer as those of the library do, or not at all. -/
def Faithful (ops : Operations α) : Prop := ∀ c, ops.answer c = .error .outOfSteps ∨ ops.answer c = unbounded.answer c

/-- A step that has an answer has had answers to all calls that it makes, and it is the answer of the
    library. -/
theorem Faithful.next {ops : Operations α} (h : ops.Faithful) {c : Call α} (hc : ops.next.answer c ≠ .error .outOfSteps) :
    ops.next.answer c = unbounded.answer c ∧ ∀ d, c.Makes d → ops.answer d ≠ .error .outOfSteps := by
  obtain ⟨cs, -, hasks⟩ : AsksOnly _ ops _ := asks_next c
  have hanswers : ∀ d ∈ cs, ops.answer d ≠ .error .outOfSteps := by
    intro d hd hstop
    -- To leave out a call that has no answer anyway changes nothing.
    have hsame : (ops.without d).next.answer c = ops.next.answer c := by
      refine hasks.same fun e _ => ?_
      by_cases he : e = d
      · rw [he, answer_without_self, hstop]
      · exact answer_without ops he
    exact hc (hsame.symm.trans (hasks.stops hd))
  have hlibrary : ∀ d ∈ cs, ops.answer d = unbounded.answer d := fun d hd => (h d).resolve_left (hanswers d hd)
  refine ⟨?_, fun d hd => hanswers d ?_⟩
  · have hsame : unbounded.next.answer c = ops.next.answer c := hasks.same fun d hd => (hlibrary d hd).symm
    exact hsame.symm.trans (answer_next c)
  · by_contra hmem
    have hsame : (unbounded.without d).next.answer c = ops.next.answer c := by
      refine hasks.same fun e he => ?_
      have hne : e ≠ d := ne_of_mem_of_not_mem he hmem
      rw [answer_without unbounded hne, hlibrary e he]
    exact hc (hsame.symm.trans hd)

theorem faithful_careful (n : Nat) : (careful (α := α) n).Faithful := by
  induction n with
  | zero => exact fun c => Or.inl (by cases c <;> rfl)
  | succ n ih =>
    intro c
    by_cases hc : (careful n).next.answer c = .error .outOfSteps
    · exact Or.inl ((answer_careful_succ n c).elim id fun h => h.trans hc)
    · exact (answer_careful_succ n c).imp_right fun h => h.trans (ih.next hc).1

end Operations

open Operations in
/-- Operations that have no answer where a zero is added to a sum of matrices have none for a call that
    leads there. -/
theorem Call.AddsZero.stops {c : Call α} (h : c.AddsZero) (n : Nat) : (careful n).answer c = .error .outOfSteps := by
  obtain ⟨d, hd, hzero⟩ := h
  induction hd using Relation.ReflTransGen.head_induction_on generalizing n with
  | refl =>
    cases n with
    | zero => cases d <;> rfl
    | succ n =>
      cases d with
      | add a b => exact if_pos hzero
      | _ => exact absurd hzero Bool.false_ne_true
  | @head c e hce _ ih =>
    cases n with
    | zero => cases c <;> rfl
    | succ n =>
      by_contra hc
      have hnext := (answer_careful_succ n c).resolve_left hc
      exact ((faithful_careful n).next (hnext ▸ hc)).2 e hce (ih n)

open Operations in
/-- A multiplication that such operations have an answer for, whatever is done with it next. -/
theorem careful_bind {β : Type} {n : Nat} {a b : Expr α} {f : Expr α → Except Stop β} {r : Except ArithError β}
    (h : (careful n).mul a b >>= f = liftM r) :
    ¬ (Call.mul a b).AddsZero ∧ (liftM (a.mul b) : Except Stop (Expr α)) >>= f = liftM r := by
  have hstops : (careful n).answer (.mul a b) ≠ .error .outOfSteps := by
    intro (hstop : (careful n).mul a b = .error .outOfSteps)
    rw [hstop] at h
    exact lift_ne_outOfSteps r h.symm
  have hanswer : (careful n).mul a b = liftM (a.mul b) := (faithful_careful n (.mul a b)).resolve_left hstops
  exact ⟨fun hz => hstops (hz.stops n), hanswer ▸ h⟩

open Operations in
theorem careful_mul {n : Nat} {a b : Expr α} {r : Except ArithError (Expr α)} (h : (careful n).mul a b = liftM r) :
    a.mul b = r ∧ ¬ (Call.mul a b).AddsZero := by
  rw [← bind_pure ((careful n).mul a b)] at h
  obtain ⟨hz, hmul⟩ := careful_bind h
  rw [bind_pure] at hmul
  exact ⟨lift_injective hmul, hz⟩

end SymbolicAlgebra.Expr
