/-
  SymbolicAlgebra.Proofs.Termination — the arithmetic terminates.

  `Makes c d` says that one step of the call `c` makes the call `d`. A multiplication makes
  multiplications of fewer nodes only; additions, zero tests and scalings make none, and the calls that
  they make need less depth (`Makes.depth_lt`, from the bound in `SymbolicAlgebra.Proofs.Depth`). So there is
  no endless chain of calls (`makes_wellFounded`), and as a step makes finitely many, a call leads to
  finitely many altogether (`finite_reached`). Calls whose nesting is cut off at some depth give the
  answers of the library once the depth is large enough (`exists_depth`).
-/

import SymbolicAlgebra.Proofs.Calls
import SymbolicAlgebra.Proofs.Rational

namespace SymbolicAlgebra.Expr

variable {α : Type}

namespace Call

/-- How deep the calls of an addition, a zero test or a scaling may nest. -/
def depth : Call α → Nat
  | .add a b => 2 * (a.weight + b.weight)
  | .isZero e => e.zeroDepth
  | .scale _ e => 2 * e.weight + 1
  | .mul _ _ => 0

theorem depth_pos {c : Call α} (h : c.Additive) : 0 < c.depth := by
  cases c with
  | add a b =>
    have := weight_pos a
    simp only [depth]
    omega
  | isZero e =>
    have := weight_pos e
    simp only [depth, zeroDepth]
    omega
  | scale v e => exact Nat.succ_pos _
  | mul a b =>
    have := a.size_pos
    simp only [Additive, nodes] at h
    omega

end Call

variable [Scalar α]

namespace Operations

/-- Multiplication with at most so many calls inside one another. -/
def mulWithin : Nat → Expr α → Expr α → Except Stop (Expr α)
  | 0, _, _ => .error .outOfSteps
  | n + 1, a, b => mulStep ⟨Calls.upTo n, mulWithin n⟩ a b

/-- The operations, with calls that nest at most so deep. -/
def upTo (n : Nat) : Operations α := ⟨Calls.upTo n, mulWithin n⟩

end Operations

namespace Call

open Operations

/-- The first call makes the second: it has no answer when that one has none. -/
def Makes (c d : Call α) : Prop := (unbounded.without d).next.answer c = .error .outOfSteps

/-! ## One step -/

/-- The calls that a call makes are finitely many: multiplications of fewer nodes, or no multiplications
    at all. Its answer depends on theirs only. -/
theorem exists_calls (c : Call α) : ∃ cs : List (Call α), (∀ d, c.Makes d ↔ d ∈ cs) ∧
    (∀ d ∈ cs, d.nodes < c.nodes ∨ d.Additive ∧ c.Additive) ∧
    ∀ ops : Operations α, (∀ d ∈ cs, ops.answer d = unbounded.answer d) → ops.next.answer c = unbounded.answer c := by
  obtain ⟨cs, hcs, hasks⟩ : AsksOnly _ unbounded _ := asks_next c
  refine ⟨cs, fun d => ⟨fun hd => ?_, hasks.stops⟩, hcs, fun ops h => (hasks.same h).trans (answer_next c)⟩
  -- Without a call that is not in the list the step has its answer all the same.
  by_contra hmem
  have hsame : (unbounded.without d).next.answer c = unbounded.answer c := (hasks.without hmem).trans (answer_next c)
  exact answer_ne_outOfSteps c (hsame.symm.trans hd)

/-- Multiplications make multiplications of fewer nodes; the other operations make none. -/
theorem Makes.nodes_lt_or {c d : Call α} (h : c.Makes d) : d.nodes < c.nodes ∨ d.Additive ∧ c.Additive := by
  obtain ⟨cs, hcs, hnodes, -⟩ := exists_calls c
  exact hnodes d ((hcs d).mp h)

/-- A call that needs more depth is not missed by those that need no more than `n`. -/
theorem enough_without {n : Nat} {d : Call α} (h : n < d.depth) :
    Calls.Enough n Calls.unbounded (unbounded.without d).toCalls := by
  have hc := Calls.enough_unbounded (α := α) n
  have hne {c : Call α} (hw : c.depth ≤ n) : c ≠ d := by
    rintro rfl
    exact absurd hw (Nat.not_le.mpr h)
  constructor
  · intro a b hw
    exact ⟨answer_without unbounded (hne (c := .add a b) hw), (hc.add hw).right⟩
  · intro e hw
    exact ⟨answer_without unbounded (hne (c := .isZero e) hw), (hc.isZero hw).right⟩
  · intro v e hw
    exact ⟨answer_without unbounded (hne (c := .scale v e) hw), (hc.scale hw).right⟩

/-- An addition, a zero test or a scaling makes calls that nest less deep. -/
theorem Makes.depth_lt {c d : Call α} (h : c.Makes d) (hc : c.Additive) : d.depth < c.depth := by
  -- Otherwise the calls of lesser depth, which are all that this step needs, would not include the second.
  by_contra hle
  obtain ⟨n, hn⟩ : ∃ n, c.depth = n + 1 := Nat.exists_eq_add_one.mpr (depth_pos hc)
  have hnext := (enough_without (d := d) (n := n) (by omega)).next
  cases c with
  | add a b =>
    have hend := (hnext.add hn.le).right
    rw [show (unbounded.without d).toCalls.next.add a b = _ from h] at hend
    exact hend rfl
  | isZero e =>
    have hend := (hnext.isZero hn.le).right
    rw [show (unbounded.without d).toCalls.next.isZero e = _ from h] at hend
    exact hend
  | scale v e =>
    have hend := (hnext.scale (v := v) hn.le).right
    rw [show (unbounded.without d).toCalls.next.scale v e = _ from h] at hend
    exact hend rfl
  | mul a b =>
    have := a.size_pos
    simp only [Additive, nodes] at hc
    omega

/-! ## All the calls of a computation -/

/-- Multiplications go by the number of nodes, the other operations by their depth. -/
theorem makes_wellFounded : WellFounded fun d c : Call α => c.Makes d := by
  have hrank : WellFounded fun d c : Call α => toLex (d.nodes, d.depth) < toLex (c.nodes, c.depth) :=
    InvImage.wf (fun c : Call α => toLex (c.nodes, c.depth)) wellFounded_lt
  refine Subrelation.wf (fun {d c} hd => ?_) hrank
  rw [Prod.Lex.toLex_lt_toLex]
  rcases hd.nodes_lt_or with hlt | ⟨hd0, hc0⟩
  · exact Or.inl hlt
  · exact Or.inr ⟨hd0.trans hc0.symm, hd.depth_lt hc0⟩

/-- A call leads to finitely many others, directly or through others. -/
theorem finite_reached (c : Call α) : {d | Relation.TransGen Makes c d}.Finite := by
  induction c using WellFounded.induction (makes_wellFounded (α := α)) with
  | _ c ih =>
    obtain ⟨cs, hcs, -, -⟩ := exists_calls c
    refine Set.Finite.subset (Set.Finite.biUnion (List.finite_toSet cs) fun e he => (ih e ((hcs e).mpr he)).insert e) ?_
    intro d hd
    obtain ⟨e, hce, hed⟩ := Relation.TransGen.head'_iff.mp hd
    refine Set.mem_biUnion ((hcs e).mp hce) ?_
    rcases Relation.reflTransGen_iff_eq_or_transGen.mp hed with rfl | hed
    · exact Set.mem_insert _ _
    · exact Set.mem_insert_of_mem _ hed

/-- To cut off the nesting of calls changes nothing, from some depth on. -/
theorem exists_depth (c : Call α) : ∃ n, ∀ m, n ≤ m → (upTo m).answer c = unbounded.answer c := by
  induction c using WellFounded.induction (makes_wellFounded (α := α)) with
  | _ c ih =>
    obtain ⟨cs, hcs, -, hsame⟩ := exists_calls c
    have hcalls : ∀ᶠ n in Filter.atTop, ∀ d ∈ cs, (upTo n).answer d = unbounded.answer d := by
      refine (Filter.eventually_all_finite (List.finite_toSet cs)).mpr fun d hd => ?_
      exact Filter.eventually_atTop.mpr (ih d ((hcs d).mpr hd))
    obtain ⟨n, hn⟩ := Filter.eventually_atTop.mp hcalls
    refine ⟨n + 1, fun m hm => ?_⟩
    obtain ⟨k, rfl⟩ : ∃ k, m = k + 1 := Nat.exists_eq_add_one.mpr (by omega)
    exact hsame (upTo k) (hn k (Nat.le_of_succ_le_succ hm))

end Call

open Operations in
/-- Addition, the zero test, scaling and multiplication make no endless chain of calls: a call leads to
    finitely many, its answer is found from those of the calls that it makes, and it is the answer that
    calls with a bound on their nesting give if the bound is not too small. -/
theorem arithmetic_terminates : WellFounded (fun d c : Call α => c.Makes d) ∧ ∀ c : Call α,
    {d | Relation.TransGen Call.Makes c d}.Finite ∧
    (∀ ops : Operations α, (∀ d, c.Makes d → ops.answer d = unbounded.answer d) → ops.next.answer c = unbounded.answer c) ∧
    unbounded.answer c ≠ .error .outOfSteps ∧ ∃ n, ∀ m, n ≤ m → (upTo m).answer c = unbounded.answer c := by
  refine ⟨Call.makes_wellFounded, fun c => ⟨c.finite_reached, fun ops h => ?_, answer_ne_outOfSteps c, c.exists_depth⟩⟩
  obtain ⟨cs, hcs, -, hsame⟩ := c.exists_calls
  exact hsame ops fun d hd => h d ((hcs d).mpr hd)

open Operations in
/-- A variable and a product: the product is tested for zero, for that its first factor is, and no product
    of two trees is needed. -/
theorem arithmetic_terminates_unlike :
    let x : Expr ℚ := .var ⟨"x", 1, 1⟩
    let y : Expr ℚ := .var ⟨"y", 1, 1⟩
    let z : Expr ℚ := .var ⟨"z", 1, 1⟩
    Call.Makes (.add x (.product [y, z])) (.isZero (.product [y, z])) ∧
    Call.Makes (.isZero (.product [y, z])) (.isZero y) ∧
    {d | Relation.TransGen Call.Makes (.add x (.product [y, z])) d}.Finite ∧
    (next ⟨Calls.unbounded, fun _ _ => .error .outOfSteps⟩).add x (.product [y, z]) = .ok (.sum [x, .product [y, z]]) ∧
    ∃ n, ∀ m, n ≤ m → (upTo m).add x (.product [y, z]) = .ok (.sum [x, .product [y, z]]) := by
  intro x y z
  obtain ⟨hfin, hans, -, n, hn⟩ := arithmetic_terminates.2 (.add x (.product [y, z]))
  have hadd : x.add (.product [y, z]) = .ok (.sum [x, .product [y, z]]) := by cbv
  have hout : unbounded.answer (.add x (.product [y, z])) = .ok (.sum [x, .product [y, z]]) := Calls.unbounded_add hadd
  refine ⟨?_, ?_, hfin, (hans _ ?_).trans hout, n, fun m hm => (hn m hm).trans hout⟩
  · have hmiss : (unbounded.without (.isZero (.product [y, z]))).isZero (.product [y, z]) = .error .outOfSteps :=
      if_pos rfl
    show Calls.addUnlike _ x (.product [y, z]) = _
    rw [Calls.addUnlike, hmiss]
    rfl
  · have hmiss : (unbounded.without (.isZero y)).isZero y = .error .outOfSteps := if_pos rfl
    show List.anyM _ [y, z] = _
    rw [List.anyM, hmiss]
    rfl
  · intro d hd
    cases d with
    | mul a b =>
      have := a.size_pos
      have := hd.nodes_lt_or
      simp only [Call.Additive, Call.nodes] at this
      omega
    | _ => rfl

end SymbolicAlgebra.Expr
