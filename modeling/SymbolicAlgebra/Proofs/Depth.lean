/-
  SymbolicAlgebra.Proofs.Depth — the bound on the nesting of calls is enough.

  Addition, the zero test and scaling call one another to a depth that is fixed beforehand. A call on
  light arguments makes calls on lighter ones only: each level down, twice the weight drops by one at
  least (`Calls.Enough.next`). So a computation that may go as deep as twice its weight does not run out
  of steps, and going deeper changes nothing (`Calls.enough_upTo`).

  With that the three operations satisfy the equations they would have without a bound: one step, with
  the operations themselves for the calls (`add_eq_step`, `isZero_eq_step`, `scale_eq_step`). In
  particular a product is zero when a factor is, and a grid when all of its cells are
  (`isZero_product`, `isZero_matrix`).
-/

import SymbolicAlgebra.Proofs.Outcomes.Add
import SymbolicAlgebra.Proofs.Weight

namespace SymbolicAlgebra

/-! ## Two runs with one outcome -/

section
variable {ε β γ δ σ : Type}

/-- Both runs end in the same way, and as they should. -/
def Concur (allowed : ε → Prop) (Q : β → Prop) (x y : Except ε β) : Prop := y = x ∧ Ends allowed Q x

namespace Concur

variable {allowed allowed' : ε → Prop} {Q Q' : β → Prop} {R : γ → Prop}

theorem ok {b : β} (h : Q b) : Concur allowed Q (.ok b) (.ok b) := ⟨rfl, h⟩

theorem imp {x y : Except ε β} (h : Concur allowed Q x y) (hQ : ∀ b, Q b → Q' b) : Concur allowed Q' x y :=
  ⟨h.1, h.2.imp hQ⟩

theorem allow {x y : Except ε β} (h : Concur allowed Q x y) (ha : ∀ e, allowed e → allowed' e) : Concur allowed' Q x y :=
  ⟨h.1, h.2.allow ha⟩

theorem right {x y : Except ε β} (h : Concur allowed Q x y) : Ends allowed Q y := h.1 ▸ h.2

/-- Two runs that both concur with a third. -/
theorem common {x y z : Except ε β} (hy : Concur allowed Q x y) (hz : Concur allowed Q x z) : Concur allowed Q y z :=
  ⟨hz.1.trans hy.1.symm, hy.right⟩

theorem bind {x y : Except ε β} {f g : β → Except ε γ} (h : Concur allowed Q x y)
    (hf : ∀ b, Q b → Concur allowed R (f b) (g b)) : Concur allowed R (x >>= f) (y >>= g) := by
  obtain ⟨rfl, hx⟩ := h
  cases y with
  | ok b => exact hf b hx
  | error e => exact ⟨rfl, hx⟩

theorem ite {p : Prop} [Decidable p] {x y x' y' : Except ε β} (h : Concur allowed Q x y) (h' : Concur allowed Q x' y') :
    Concur allowed Q (if p then x else x') (if p then y else y') := by
  split
  · exact h
  · exact h'

theorem mapM {f g : β → Except ε γ} {S : β → γ → Prop} {xs : List β}
    (h : ∀ x ∈ xs, Concur allowed (S x) (f x) (g x)) : Concur allowed (List.Forall₂ S xs) (xs.mapM f) (xs.mapM g) := by
  induction xs with
  | nil => exact ok .nil
  | cons x xs ih =>
    obtain ⟨hx, hxs⟩ := List.forall_mem_cons.mp h
    rw [List.mapM_cons, List.mapM_cons]
    exact hx.bind fun y hy => (ih hxs).bind fun ys hys => ok (.cons hy hys)

/-- The invariant is about what is left of the list. -/
theorem foldlM {I : List γ → σ → Prop} {f g : σ → γ → Except ε σ} {xs : List γ} {s : σ} (hs : I xs s)
    (h : ∀ x rest s, I (x :: rest) s → Concur allowed (I rest) (f s x) (g s x)) :
    Concur allowed (I []) (xs.foldlM f s) (xs.foldlM g s) := by
  induction xs generalizing s with
  | nil => exact ok hs
  | cons x xs ih =>
    rw [List.foldlM_cons, List.foldlM_cons]
    exact (h x xs s hs).bind fun s hs => ih hs

theorem anyM {f g : β → Except ε Bool} {xs : List β} (h : ∀ x ∈ xs, Concur allowed (fun _ => True) (f x) (g x)) :
    Concur allowed (fun _ => True) (xs.anyM f) (xs.anyM g) := by
  induction xs with
  | nil => exact ok trivial
  | cons x xs ih =>
    obtain ⟨hx, hxs⟩ := List.forall_mem_cons.mp h
    unfold List.anyM
    refine hx.bind fun b _ => ?_
    cases b with
    | true => exact ok trivial
    | false => exact ih hxs

theorem allM {f g : β → Except ε Bool} {xs : List β} (h : ∀ x ∈ xs, Concur allowed (fun _ => True) (f x) (g x)) :
    Concur allowed (fun _ => True) (xs.allM f) (xs.allM g) := by
  induction xs with
  | nil => exact ok trivial
  | cons x xs ih =>
    obtain ⟨hx, hxs⟩ := List.forall_mem_cons.mp h
    unfold List.allM
    refine hx.bind fun b _ => ?_
    cases b with
    | true => exact ih hxs
    | false => exact ok trivial

end Concur

end

namespace Expr

variable {α : Type}

/-- How deep the calls of a zero test may nest. To test a sum takes an addition, and the test of its
    result. -/
def zeroDepth (e : Expr α) : Nat := 2 * e.weight + if e.kind = .sum then 1 else 0

theorem zeroDepth_le (e : Expr α) : e.zeroDepth ≤ 2 * e.weight + 1 := by
  unfold zeroDepth
  split <;> omega

theorem zeroDepth_eq {e : Expr α} (h : e.kind ≠ .sum) : e.zeroDepth = 2 * e.weight := by
  rw [zeroDepth, if_neg h, Nat.add_zero]

/-- The terms absorb one more without becoming heavier than before by more than that term; fewer of them
    are lighter than before. -/
structure Absorbs (t : Expr α) (ts us : List (Expr α)) : Prop where
  weight : weightTerms us ≤ weightTerms ts + t.weight
  fewer : us.length < ts.length → weightTerms us < weightTerms ts

namespace Absorbs

variable {t : Expr α} {ts us : List (Expr α)}

theorem weight_sum (h : Absorbs t ts us) : (sum us).weight ≤ (sum ts).weight + t.weight := by
  have hweight := h.weight
  have hfewer := h.fewer
  simp only [Expr.weight]
  split <;> split <;> omega

theorem cons (x : Expr α) (h : Absorbs t ts us) : Absorbs t (x :: ts) (x :: us) := by
  have hweight := h.weight
  have hfewer := h.fewer
  constructor
  · simp only [weightTerms]
    omega
  · simp only [weightTerms, List.length_cons]
    omega

/-- A term makes place for one that is not too heavy. -/
theorem replace {x c : Expr α} (xs : List (Expr α)) (h : c.weight ≤ x.weight + t.weight) :
    Absorbs t (x :: xs) (c :: xs) := by
  constructor
  · simp only [weightTerms]
    omega
  · intro hlt
    simp at hlt

theorem drop (x : Expr α) (xs : List (Expr α)) : Absorbs t (x :: xs) xs := by
  have hx := weight_pos x
  constructor
  · simp only [weightTerms]
    omega
  · intro _
    simp only [weightTerms]
    omega

theorem refl (ts : List (Expr α)) : Absorbs t ts ts :=
  ⟨Nat.le_add_right _ _, fun h => absurd h (Nat.lt_irrefl _)⟩

theorem append (ts : List (Expr α)) : Absorbs t ts (ts ++ [t]) := by
  constructor
  · simp [weightTerms_append, weightTerms]
  · intro hlt
    simp at hlt

end Absorbs

namespace Calls

/-- What an offer of `t` to the terms `ts` makes of them. -/
def Offer.Fits (t : Expr α) (ts : List (Expr α)) : Offer α → Prop
  | .merged us => Absorbs t ts us
  | .grouped us => Absorbs t ts us
  | .apart => True

/-- Both agree on all arguments for which `n` levels of calls are enough: they do not run out of steps,
    a zero test has an answer, and no result is heavier than what it is made of. -/
structure Enough (n : Nat) (call call' : Calls α) : Prop where
  add {a b : Expr α} : 2 * (a.weight + b.weight) ≤ n →
    Concur (· ≠ .outOfSteps) (fun c => c.weight ≤ a.weight + b.weight) (call.add a b) (call'.add a b)
  isZero {e : Expr α} : e.zeroDepth ≤ n → Concur (fun _ => False) (fun _ => True) (call.isZero e) (call'.isZero e)
  scale {v : α} {e : Expr α} : 2 * e.weight + 1 ≤ n →
    Concur (· ≠ .outOfSteps) (fun c => c.weight ≤ e.weight) (call.scale v e) (call'.scale v e)

/-- One step of each operation, which makes these calls. -/
def next [Scalar α] (call : Calls α) : Calls α := ⟨call.addStep, call.isZeroStep, call.scaleStep⟩

namespace Enough

variable [Scalar α] {n : Nat} {call call' : Calls α} (hc : Enough n call call') {a b t : Expr α} {ts : List (Expr α)}

section
omit [Scalar α]

/-- A plain operation does not run out of steps. -/
theorem lift {β : Type} (x : Except ArithError β) :
    Concur (· ≠ Stop.outOfSteps) (fun b => x = .ok b) (liftM x) (liftM x) := by
  cases x with
  | ok b => exact .ok rfl
  | error e => exact ⟨rfl, Stop.noConfusion⟩

theorem lift_pair (a b : Expr α) :
    Concur (· ≠ Stop.outOfSteps) (fun c => c.weight ≤ a.weight + b.weight) (liftM (pair a b)) (liftM (pair a b)) :=
  (lift (pair a b)).imp fun _ h => (weight_pair h).le

theorem throw {β : Type} {Q : β → Prop} (e : ArithError) :
    Concur (· ≠ Stop.outOfSteps) Q (MonadExcept.throw (.refused e)) (MonadExcept.throw (.refused e)) :=
  ⟨rfl, Stop.noConfusion⟩

/-- A grid with a new cell for each of its cells. -/
theorem cells {f f' : Expr α → Except Stop (Expr α)} {g : Grid (Expr α)} {k : Nat} (hk : 0 < k)
    (h : ∀ x ∈ g.cells, Concur (· ≠ Stop.outOfSteps) (fun c => c.weight < k) (f x) (f' x)) :
    Concur (· ≠ Stop.outOfSteps) (fun c : Expr α => c.weight ≤ k) (do return .matrix (← g.mapM f))
      (do return .matrix (← g.mapM f')) := by
  unfold Grid.mapM
  simp only [bind_assoc, pure_bind]
  refine (Concur.mapM (S := fun _ c => c.weight < k) h).bind fun cells hcells => .ok ?_
  exact weight_matrix_le (forall_mem_right hcells fun _ _ _ hw => hw) hk

end

section
omit [Scalar α]
include hc

theorem zero (h : t.zeroDepth ≤ n) :
    Concur (· ≠ Stop.outOfSteps) (fun _ => True) (call.isZero t) (call'.isZero t) :=
  (hc.isZero h).allow fun _ h => h.elim

/-! ## Additions -/

/-- A summand that is zero is dropped, whatever would be done with another one. -/
theorem unlessZero {Q : Expr α → Prop} {x y : Except Stop (Expr α)} (hb : b.zeroDepth ≤ n) (ha : Q a)
    (h : Concur (· ≠ .outOfSteps) Q x y) :
    Concur (· ≠ .outOfSteps) Q (do if ← call.isZero b then return a else x)
      (do if ← call'.isZero b then return a else y) := by
  refine (hc.zero hb).bind fun z _ => ?_
  cases z with
  | true => exact .ok ha
  | false => exact h

theorem offer {ns : List String} (h : ∀ x ∈ ts, 2 * (x.weight + t.weight) ≤ n) :
    Concur (· ≠ .outOfSteps) (Offer.Fits t ts) (call.offer t ns ts) (call'.offer t ns ts) := by
  induction ts with
  | nil => exact .ok trivial
  | cons x xs ih =>
    obtain ⟨hx, hxs⟩ := List.forall_mem_cons.mp h
    unfold Calls.offer
    by_cases hn : (x.freeNames != ns) = true
    · rw [if_pos hn, if_pos hn]
      refine (ih hxs).bind fun o ho => ?_
      cases o with
      | merged us => exact .ok (ho.cons x)
      | grouped us => exact .ok (ho.cons x)
      | apart => exact .ok trivial
    · rw [if_neg hn, if_neg hn]
      refine (hc.add hx).bind fun c hw => ?_
      -- Only a node that is no sum is tested, which takes no more than the addition did.
      have test : c.kind ≠ .sum → Concur (· ≠ Stop.outOfSteps) (Offer.Fits t (x :: xs))
          (do if ← call.isZero c then return .merged xs else return .merged (c :: xs))
          (do if ← call'.isZero c then return .merged xs else return .merged (c :: xs)) := by
        intro hk
        have hzero : c.zeroDepth ≤ n := by
          rw [zeroDepth_eq hk]
          omega
        refine (hc.zero hzero).bind fun z _ => ?_
        cases z with
        | true => exact .ok (Absorbs.drop x xs)
        | false => exact .ok (Absorbs.replace xs hw)
      cases c with
      | sum ms =>
        refine (ih hxs).bind fun o ho => ?_
        cases o with
        | merged us => exact .ok (ho.cons x)
        | grouped us => exact .ok (Absorbs.replace xs hw)
        | apart => exact .ok (Absorbs.replace xs hw)
      | _ => exact test (by simp [kind])

theorem addTerm (h : ∀ x ∈ ts, 2 * (x.weight + t.weight) ≤ n) (ht : t.zeroDepth ≤ n) :
    Concur (· ≠ .outOfSteps) (Absorbs t ts) (call.addTerm ts t) (call'.addTerm ts t) := by
  unfold Calls.addTerm
  refine (hc.zero ht).bind fun z _ => ?_
  cases z with
  | true => exact .ok (Absorbs.refl ts)
  | false =>
    refine (hc.offer h).bind fun o ho => ?_
    cases o with
    | merged us => exact .ok ho
    | grouped us => exact .ok ho
    | apart => exact .ok (Absorbs.append ts)

theorem addTerms {us : List (Expr α)} (h : 2 * ((sum ts).weight + weightTerms us) ≤ n + 1)
    (hus : ∀ u ∈ us, u.zeroDepth ≤ n) :
    Concur (· ≠ .outOfSteps) (fun vs => (sum vs).weight ≤ (sum ts).weight + weightTerms us)
      (us.foldlM call.addTerm ts) (us.foldlM call'.addTerm ts) := by
  have start : (sum ts).weight + weightTerms us ≤ (sum ts).weight + weightTerms us ∧ ∀ u ∈ us, u.zeroDepth ≤ n :=
    ⟨le_refl _, hus⟩
  refine (Concur.foldlM (I := fun rest vs =>
    (sum vs).weight + weightTerms rest ≤ (sum ts).weight + weightTerms us ∧ ∀ u ∈ rest, u.zeroDepth ≤ n) start ?_).imp
      fun vs hvs => hvs.1
  intro u rest vs hI
  obtain ⟨hw, hrest⟩ := hI
  obtain ⟨hu, hrest⟩ := List.forall_mem_cons.mp hrest
  rw [weightTerms] at hw
  refine (hc.addTerm (fun x hx => ?_) hu).imp fun vs' hvs => ⟨?_, hrest⟩
  · have := weight_lt_sum hx
    omega
  · have := hvs.weight_sum
    omega

theorem addUnlike (hb : b.kind ≠ .sum) (h : 2 * (a.weight + b.weight) ≤ n + 1) :
    Concur (· ≠ .outOfSteps) (fun c => c.weight ≤ a.weight + b.weight) (call.addUnlike a b) (call'.addUnlike a b) := by
  have ha := weight_pos a
  unfold Calls.addUnlike
  refine hc.unlessZero ?_ (Nat.le_add_right _ _) (lift_pair a b)
  rw [zeroDepth_eq hb]
  omega

theorem addToGrid {g : Grid (Expr α)} (h : 2 * ((matrix g).weight + b.weight) ≤ n + 1) :
    Concur (· ≠ .outOfSteps) (fun c => c.weight ≤ (matrix g).weight + b.weight) (call.addToGrid g b) (call'.addToGrid g b) := by
  unfold Calls.addToGrid
  refine (lift _).bind fun s _ => ?_
  split
  · refine cells (Nat.add_pos_left (weight_pos _) _) fun x hx => ?_
    have hlt := weight_lt_matrix hx
    exact (hc.add (by omega)).imp fun c hw => by omega
  · split
    · exact lift_pair _ _
    · exact throw _

theorem addGridTo {g : Grid (Expr α)} (h : 2 * (a.weight + (matrix g).weight) ≤ n + 1) :
    Concur (· ≠ .outOfSteps) (fun c => c.weight ≤ a.weight + (matrix g).weight) (call.addGridTo a g) (call'.addGridTo a g) := by
  unfold Calls.addGridTo
  refine (lift _).bind fun s _ => ?_
  split
  · refine cells (Nat.add_pos_right _ (weight_pos _)) fun x hx => ?_
    have hlt := weight_lt_matrix hx
    exact (hc.add (by omega)).imp fun c hw => by omega
  · split
    · exact lift_pair _ _
    · exact throw _

theorem scaleCells {v : α} {g : Grid (Expr α)} (h : 2 * (matrix g).weight ≤ n + 1) :
    Concur (· ≠ Stop.outOfSteps) (fun c : Expr α => c.weight ≤ (matrix g).weight)
      (do return .matrix (← g.mapM (call.scale v))) (do return .matrix (← g.mapM (call'.scale v))) := by
  refine cells (weight_pos _) fun x hx => ?_
  have hlt := weight_lt_matrix hx
  exact (hc.scale (by omega)).imp fun c hw => hw.trans_lt hlt

theorem cancels {x : Expr α} (h : 2 * (x.weight + t.weight) ≤ n) :
    Concur (fun _ => False) (fun _ => True) (call.cancels x t) (call'.cancels x t) := by
  obtain ⟨heq, hends⟩ := hc.add h
  unfold Calls.cancels
  rw [heq]
  cases hx : call.add x t with
  | ok c =>
    rw [hx] at hends
    have hw : c.weight ≤ x.weight + t.weight := hends
    have test : c.kind ≠ .sum → Concur (fun _ => False) (fun _ => True) (call.isZero c) (call'.isZero c) := by
      intro hk
      exact hc.isZero (by rw [zeroDepth_eq hk]; omega)
    cases c with
    | sum ms => exact .ok trivial
    | _ => exact test (by simp [kind])
  | error e =>
    cases e with
    | outOfSteps =>
      rw [hx] at hends
      exact absurd rfl hends
    | refused e => exact .ok trivial

theorem cancelFirst? {kept : List (Expr α)} (h : ∀ x ∈ kept, 2 * (x.weight + t.weight) ≤ n) :
    Concur (fun _ => False) (fun o => ∀ rest, o = some rest → weightTerms rest ≤ weightTerms kept)
      (call.cancelFirst? t kept) (call'.cancelFirst? t kept) := by
  induction kept with
  | nil => exact .ok (by simp)
  | cons x xs ih =>
    obtain ⟨hx, hxs⟩ := List.forall_mem_cons.mp h
    unfold Calls.cancelFirst?
    refine (hc.cancels hx).bind fun b _ => ?_
    cases b with
    | true => exact .ok (by simp [weightTerms])
    | false =>
      refine (ih hxs).bind fun o ho => .ok ?_
      intro rest hrest
      obtain ⟨us, hus, rfl⟩ := Option.map_eq_some_iff.mp hrest
      exact Nat.add_le_add_left (ho us hus) _

theorem keep {kept : List (Expr α)} (h : ∀ x ∈ kept, 2 * (x.weight + t.weight) ≤ n) (ht : t.zeroDepth ≤ n) :
    Concur (fun _ => False) (fun us => weightTerms us ≤ weightTerms kept + t.weight) (call.keep kept t)
      (call'.keep kept t) := by
  unfold Calls.keep
  refine (hc.cancelFirst? h).bind fun o ho => ?_
  cases o with
  | some rest => exact .ok ((ho rest rfl).trans (Nat.le_add_right _ _))
  | none =>
    refine (hc.isZero ht).bind fun z _ => ?_
    cases z with
    | true => exact .ok (Nat.le_add_right _ _)
    | false => exact .ok (by simp [weightTerms_append, weightTerms])

end

include hc

theorem addToSum (h : 2 * ((sum ts).weight + b.weight) ≤ n + 1) :
    Concur (· ≠ .outOfSteps) (fun c => c.weight ≤ (sum ts).weight + b.weight) (call.addToSum ts b) (call'.addToSum ts b) := by
  have hpos := weight_pos (sum ts)
  unfold Calls.addToSum
  refine (lift _).bind fun left _ => (lift _).bind fun right _ => ?_
  by_cases hs : left ≠ right
  · rw [if_pos hs, if_pos hs]
    exact throw _
  · rw [if_neg hs, if_neg hs]
    -- A term of `b` is lighter than `b`, if `b` is a sum.
    have single : b.kind ≠ .sum → Concur (· ≠ Stop.outOfSteps) (fun c => c.weight ≤ (sum ts).weight + b.weight)
        (do return ofTerms (← call.addTerm ts b)) (do return ofTerms (← call'.addTerm ts b)) := by
      intro hk
      have hzero : b.zeroDepth ≤ n := by
        rw [zeroDepth_eq hk]
        omega
      refine (hc.addTerm (fun x hx => ?_) hzero).bind fun vs hvs => .ok ((weight_ofTerms_le vs).trans hvs.weight_sum)
      have := weight_lt_sum hx
      omega
    cases b with
    | sum us =>
      have hus := weightTerms_le_sum us
      refine (hc.addTerms (by omega) fun u hu => ?_).bind fun vs hvs => .ok ?_
      · have := weight_lt_sum hu
        have := u.zeroDepth_le
        omega
      · have := weight_ofTerms_le vs
        omega
    | _ => exact single (by simp [kind])

theorem sumOf (h : 2 * weightTerms ts ≤ n) :
    Concur (· ≠ .outOfSteps) (fun c => c.weight ≤ (sum ts).weight) (call.sumOf ts) (call'.sumOf ts) := by
  cases ts with
  | nil => exact .ok (by simp [weight])
  | cons t ts =>
    refine (Concur.foldlM (I := fun rest c => c.weight + weightTerms rest ≤ weightTerms (t :: ts)) (le_refl _) ?_).imp
      fun c hw => ?_
    · intro x rest c hw
      rw [weightTerms] at hw
      refine (hc.add (by omega)).imp fun d hd => ?_
      omega
    · exact Nat.le_trans hw (weightTerms_le_sum _)

theorem scaleFactor {v : α} {f : Expr α} (h : 2 * f.weight + 1 ≤ n) :
    Concur (· ≠ .outOfSteps) (fun c => c.weight ≤ f.weight) (call.scaleFactor v f) (call'.scaleFactor v f) := by
  cases f with
  | matrix g =>
    exact .ite (.ok (le_refl _)) (.ite (.ok (weight_neg _).le) (hc.scaleCells (by omega)))
  | _ => exact hc.scale h

theorem scaleFactors {v : α} {fs : List (Expr α)} (h : 2 * weightFactors fs + 3 ≤ n) :
    Concur (· ≠ .outOfSteps) (fun c => c.weight ≤ weightFactors fs + 2) (call.scaleFactors v fs) (call'.scaleFactors v fs) := by
  unfold Calls.scaleFactors
  split
  · exact .ok (by simp [weight])
  · rcases fs with _ | ⟨f, _ | ⟨g, fs⟩⟩
    · exact .ok (by simp [weight])
    · have hf := weight_le_factors (List.mem_singleton.mpr rfl : f ∈ [f])
      refine (hc.scaleFactor (by omega)).imp fun c hw => ?_
      omega
    · refine .ok ?_
      split <;> simp [weight, weightFactors]

theorem addProducts {fs gs : List (Expr α)} (h : 2 * ((product fs).weight + (product gs).weight) ≤ n + 1) :
    Concur (· ≠ .outOfSteps) (fun c => c.weight ≤ (product fs).weight + (product gs).weight) (call.addProducts fs gs)
      (call'.addProducts fs gs) := by
  unfold Calls.addProducts
  dsimp only
  split
  · have hw := weightFactors_splitFrom 1 fs
    simp only [weight] at h ⊢
    refine (hc.scaleFactors (v := (splitCoefficient fs).1 + (splitCoefficient gs).1) ?_).imp fun c hc => ?_
    · rw [splitCoefficient, hw]
      omega
    · rw [splitCoefficient, hw] at hc
      omega
  · exact lift_pair _ _

/-- The number or the monomial on the left goes to the terms of a sum. -/
theorem addToSum_swap (h : 2 * (a.weight + (sum ts).weight) ≤ n + 1) :
    Concur (· ≠ .outOfSteps) (fun c => c.weight ≤ a.weight + (sum ts).weight) (call.addToSum ts a) (call'.addToSum ts a) := by
  rw [Nat.add_comm] at h ⊢
  exact hc.addToSum h

/-- Grids are added cell by cell. -/
theorem addGrids {g k : Grid (Expr α)} (h : 2 * ((matrix g).weight + (matrix k).weight) ≤ n + 1) :
    Concur (· ≠ .outOfSteps) (fun c => c.weight ≤ (matrix g).weight + (matrix k).weight)
      (call.addStep (matrix g) (matrix k)) (call'.addStep (matrix g) (matrix k)) := by
  unfold Calls.addStep
  refine .ite ?_ (throw _)
  have hpos := weight_pos (matrix k)
  unfold Grid.zipM
  simp only [bind_assoc, pure_bind]
  refine (Concur.mapM (S := fun _ c => c.weight < (matrix g).weight + (matrix k).weight) fun p hp => ?_).bind
    fun cells hcells => .ok ?_
  · have hx := weight_lt_matrix (List.of_mem_zip hp).1
    have hy := weight_lt_matrix (List.of_mem_zip hp).2
    exact (hc.add (by omega)).imp fun c hw => by omega
  · exact weight_matrix_le (forall_mem_right hcells fun _ _ _ hw => hw) (by omega)

/-- One addition calls on lighter arguments. -/
theorem addStep (h : 2 * (a.weight + b.weight) ≤ n + 1) :
    Concur (· ≠ .outOfSteps) (fun c => c.weight ≤ a.weight + b.weight) (call.addStep a b) (call'.addStep a b) := by
  cases a with
  | const v =>
    have hzero : Concur (· ≠ Stop.outOfSteps) (fun c => c.weight ≤ (const v).weight + b.weight) (.ok b) (.ok b) :=
      .ok (Nat.le_add_left _ _)
    cases b with
    | matrix g => exact hc.addGridTo h
    | const w => exact .ite hzero (.ok (by simp [weight]))
    | sum ts => exact .ite hzero (hc.addToSum_swap h)
    | var _ | product _ => exact .ite hzero (hc.addUnlike (by simp [kind]) h)
  | var m =>
    have hm : (var m).weight = (ofMonomial m).weight := (weight_ofMonomial m).symm
    cases b with
    | matrix g => exact hc.addGridTo h
    | var k =>
      refine .ite (.ok (by simp [weight_ofMonomial, weight])) ?_
      rw [hm] at h ⊢
      exact hc.addUnlike (by simp [kind]) h
    | sum ts =>
      rw [hm] at h ⊢
      exact hc.addToSum_swap h
    | const _ | product _ =>
      rw [hm] at h ⊢
      exact hc.addUnlike (by simp [kind]) h
  | sum ts =>
    cases b with
    | matrix g => exact hc.addGridTo h
    | _ => exact hc.addToSum h
  | product fs =>
    have hfs := weight_pos (product fs)
    have hzero : b.zeroDepth ≤ n := by
      have := b.zeroDepth_le
      omega
    have hle := Nat.le_add_right (product fs).weight b.weight
    cases b with
    | matrix g => exact hc.addGridTo h
    | sum ts => exact hc.unlessZero hzero hle (hc.addToSum_swap h)
    | product gs => exact hc.unlessZero hzero hle (hc.addProducts h)
    | const _ | var _ => exact hc.unlessZero hzero hle (lift_pair _ _)
  | matrix g =>
    cases b with
    | matrix k => exact hc.addGrids h
    | _ => exact hc.addToGrid h

/-- Every term of a sum is offered to those that are kept, and they do not become heavier than the sum. -/
theorem isZeroTerms (h : 2 * (sum ts).weight ≤ n) :
    Concur (fun _ => False) (fun _ => True) (call.isZeroStep (sum ts)) (call'.isZeroStep (sum ts)) := by
  have hterms := weightTerms_le_sum ts
  have start : weightTerms ([] : List (Expr α)) + weightTerms ts ≤ weightTerms ts ∧ ∀ t ∈ ts, t.zeroDepth ≤ n := by
    refine ⟨by simp [weightTerms], fun t ht => ?_⟩
    have := weight_lt_sum ht
    have := t.zeroDepth_le
    omega
  refine (Concur.foldlM (I := fun rest kept => weightTerms kept + weightTerms rest ≤ weightTerms ts ∧
    ∀ t ∈ rest, t.zeroDepth ≤ n) start ?_).bind fun kept _ => .ok trivial
  intro t rest kept hI
  obtain ⟨hw, hrest⟩ := hI
  obtain ⟨ht, hrest⟩ := List.forall_mem_cons.mp hrest
  rw [weightTerms] at hw
  refine (hc.keep (fun x hx => ?_) ht).imp fun us hus => ⟨?_, hrest⟩
  · have := weight_le_terms hx
    omega
  · omega

theorem isZeroStep {e : Expr α} (h : e.zeroDepth ≤ n + 1) :
    Concur (fun _ => False) (fun _ => True) (call.isZeroStep e) (call'.isZeroStep e) := by
  cases e with
  | const v => exact .ok trivial
  | var m => exact .ok trivial
  | sum ts =>
    refine hc.isZeroTerms ?_
    simp only [zeroDepth, kind, if_true] at h
    omega
  | product fs =>
    refine Concur.anyM fun f hf => hc.isZero ?_
    have hle := weight_le_factors hf
    have := f.zeroDepth_le
    rw [zeroDepth_eq (by simp [kind]), weight] at h
    omega
  | matrix g =>
    refine Concur.allM fun c hcell => hc.isZero ?_
    have hlt := weight_lt_matrix hcell
    have := c.zeroDepth_le
    rw [zeroDepth_eq (by simp [kind])] at h
    omega

theorem scaleTerms {v : α} (h : 2 * (sum ts).weight ≤ n) :
    Concur (· ≠ .outOfSteps) (fun c => c.weight ≤ (sum ts).weight) (do call.sumOf (← ts.mapM (call.scale v)))
      (do call'.sumOf (← ts.mapM (call'.scale v))) := by
  refine (Concur.mapM (S := fun t u => u.weight ≤ t.weight) fun t ht => hc.scale ?_).bind fun us hus => ?_
  · have := weight_lt_sum ht
    omega
  · have hle := weightTerms_le_of_forall₂ hus
    refine (hc.sumOf ?_).imp fun c hw => ?_
    · have := weightTerms_le_sum ts
      omega
    · simp only [weight, ← hus.length_eq] at hw ⊢
      omega

theorem scaleStep {v : α} {e : Expr α} (h : 2 * e.weight ≤ n) :
    Concur (· ≠ .outOfSteps) (fun c => c.weight ≤ e.weight) (call.scaleStep v e) (call'.scaleStep v e) := by
  -- Scaling by zero, one and minus one takes no call.
  have hzero : Concur (· ≠ Stop.outOfSteps) (fun c : Expr α => c.weight ≤ e.weight) (.ok (const 0)) (.ok (const 0)) :=
    .ok (weight_pos e)
  have hone : Concur (· ≠ Stop.outOfSteps) (fun c : Expr α => c.weight ≤ e.weight) (.ok e) (.ok e) := .ok (le_refl _)
  have hminus : Concur (· ≠ Stop.outOfSteps) (fun c : Expr α => c.weight ≤ e.weight) (.ok e.neg) (.ok e.neg) :=
    .ok (weight_neg e).le
  cases e with
  | matrix g => exact hc.scaleCells (by omega)
  | const w => exact .ite hzero (.ite hone (.ok (by simp [weight])))
  | var m => exact .ite hzero (.ite hone (.ite hminus (.ok (by simp [weight_ofMonomial, weight]))))
  | sum ts => exact .ite hzero (.ite hone (.ite hminus (hc.scaleTerms h)))
  | product fs => exact .ite hzero (.ite hone (.ite hminus (.ok (by simpa [weight] using weight_mulConstant_le v fs))))

/-- One more level is enough for arguments that are heavier by one half. -/
theorem next : Enough (n + 1) call.next call'.next :=
  ⟨hc.addStep, hc.isZeroStep, fun h => hc.scaleStep (by omega)⟩

end Enough

/-- Calls that nest deeper than they have to give the same results. -/
theorem enough_upTo [Scalar α] {n m : Nat} (h : n ≤ m) : Enough n (upTo (α := α) n) (upTo m) := by
  induction n generalizing m with
  | zero =>
    constructor
    · intro a b hw
      have := weight_pos a
      omega
    · intro e hz
      have := weight_pos e
      unfold zeroDepth at hz
      omega
    · intro v e hw
      omega
  | succ n ih =>
    cases m with
    | zero => omega
    | succ m => exact (ih (Nat.le_of_succ_le_succ h)).next

/-! ## Calls without a bound -/

/-- The operations themselves. -/
def unbounded [Scalar α] : Calls α :=
  ⟨fun a b => liftM (a.add b), fun e => .ok e.isZero, fun v e => liftM (Expr.scale v e)⟩

end Calls

/-- A computation that does not run out of steps settles as what it is. -/
theorem lift_settle {β : Type} {Q : β → Prop} (spare : Except ArithError β) {x : Except Stop β}
    (h : Ends (· ≠ .outOfSteps) Q x) : liftM (settle spare x) = x := by
  cases x with
  | ok b => rfl
  | error e =>
    cases e with
    | outOfSteps => exact absurd rfl h
    | refused e => rfl

section
variable [Scalar α]

theorem ok_isZero {Q : Bool → Prop} {e : Expr α} (h : Ends (fun _ => False) Q (isZeroWithin (2 * e.weight + 2) e)) :
    .ok e.isZero = isZeroWithin (2 * e.weight + 2) e := by
  unfold isZero
  cases hz : isZeroWithin (2 * e.weight + 2) e with
  | ok b => rfl
  | error x =>
    rw [hz] at h
    exact h.elim

namespace Calls

/-- The operations do what bounded calls do, wherever the bound is enough. -/
theorem enough_unbounded (n : Nat) : Enough n (upTo (α := α) n) unbounded := by
  constructor
  · intro a b hw
    have hend : Concur _ _ ((upTo n).add a b) ((upTo (2 * (a.weight + b.weight) + 2)).add a b) :=
      ((enough_upTo hw).add (le_refl _)).common ((enough_upTo (Nat.le_add_right _ 2)).add (le_refl _))
    have heq : unbounded.add a b = (upTo (2 * (a.weight + b.weight) + 2)).add a b := lift_settle _ hend.right
    rwa [heq]
  · intro e hw
    have hle : e.zeroDepth ≤ 2 * e.weight + 2 := e.zeroDepth_le.trans (Nat.le_succ _)
    have hend : Concur _ _ ((upTo n).isZero e) ((upTo (2 * e.weight + 2)).isZero e) :=
      ((enough_upTo hw).isZero (le_refl _)).common ((enough_upTo hle).isZero (le_refl _))
    have heq : unbounded.isZero e = (upTo (2 * e.weight + 2)).isZero e := ok_isZero hend.right
    rwa [heq]
  · intro v e hw
    have hend : Concur _ _ ((upTo n).scale v e) ((upTo (2 * e.weight + 2)).scale v e) :=
      ((enough_upTo hw).scale (le_refl _)).common ((enough_upTo (Nat.le_succ _)).scale (le_refl _))
    have heq : unbounded.scale v e = (upTo (2 * e.weight + 2)).scale v e := lift_settle _ hend.right
    rwa [heq]

/-- One step of bounded calls, and of those without a bound, is the same. -/
theorem enough_next (n : Nat) : Enough (n + 1) (upTo (α := α) (n + 1)) unbounded.next :=
  (enough_unbounded n).next

end Calls

/-! ## The equations of the operations -/

theorem add_eq_step (a b : Expr α) : liftM (a.add b) = Calls.unbounded.addStep a b :=
  ((Calls.enough_next (2 * (a.weight + b.weight))).add (Nat.le_succ _)).common
    ((Calls.enough_unbounded _).add (Nat.le_succ _)) |>.1

/-- An addition is one step that may add further values. -/
theorem add_eq_ok_iff {a b c : Expr α} : a.add b = .ok c ↔ Calls.unbounded.addStep a b = .ok c := by
  rw [← add_eq_step, lift_eq_ok]

@[simp] theorem Calls.unbounded_isZero (e : Expr α) : unbounded.isZero e = .ok e.isZero := rfl

theorem Calls.unbounded_add {a b c : Expr α} (h : a.add b = .ok c) : unbounded.add a b = .ok c := lift_eq_ok.mpr h

/-- Adding to a sum adds the terms one by one. -/
theorem add_sum_eq_ok {b : Expr α} {ts us : List (Expr α)} {s : Shape} (hb : b.kind ≠ .matrix)
    (hs : (Expr.sum ts).shape = .ok s) (hs' : b.shape = .ok s) (h : b.terms.foldlM Calls.unbounded.addTerm ts = .ok us) :
    (Expr.sum ts).add b = .ok (ofTerms us) := by
  have hsum : Calls.unbounded.addToSum ts b = .ok (ofTerms us) := by
    unfold Calls.addToSum
    refine bind_eq_ok.mpr ⟨s, lift_eq_ok.mpr hs, bind_eq_ok.mpr ⟨s, lift_eq_ok.mpr hs', ?_⟩⟩
    rw [if_neg (not_not.mpr rfl)]
    cases b with
    | sum vs => exact bind_eq_ok.mpr ⟨us, h, rfl⟩
    | _ =>
      obtain ⟨vs, hvs, h⟩ := bind_eq_ok.mp h
      cases pure_eq_ok.mp h
      exact bind_eq_ok.mpr ⟨us, hvs, rfl⟩
  rw [add_eq_ok_iff]
  cases b with
  | matrix g => exact absurd rfl hb
  | _ => exact hsum

/-- Zero is dropped in front of anything, in a grid in front of every cell. -/
theorem const_zero_add (zero : Scalar.nearZero (0 : α) = true) (e : Expr α) : (const 0).add e = .ok e := by
  induction e with
  | matrix g ih =>
    have hcells : g.cells.mapM (fun c => Calls.unbounded.add (const 0) c) = .ok g.cells :=
      mapM_eq_ok.mpr (List.forall₂_same.mpr fun c hc => Calls.unbounded_add (ih c hc))
    rw [add_eq_ok_iff, Calls.addStep, Calls.addGridTo]
    · refine bind_eq_ok.mpr ⟨.scalar, rfl, ?_⟩
      rw [if_pos (by rfl)]
      exact bind_eq_ok.mpr ⟨g, bind_eq_ok.mpr ⟨g.cells, hcells, rfl⟩, rfl⟩
    · simp
  | _ =>
    rw [add_eq_ok_iff, Calls.addStep, if_pos zero]
    · rfl
    all_goals simp

theorem sumOf_eq_foldlM (zero : Scalar.nearZero (0 : α) = true) (ts : List (Expr α)) :
    sumOf ts = ts.foldlM Expr.add (.const 0) := by
  cases ts with
  | nil => rfl
  | cons t ts =>
    rw [List.foldlM_cons, const_zero_add zero]
    rfl

theorem isZero_eq_step (e : Expr α) : .ok e.isZero = Calls.unbounded.isZeroStep e :=
  ((Calls.enough_next e.zeroDepth).isZero (Nat.le_succ _)).common
    ((Calls.enough_unbounded _).isZero (Nat.le_succ _)) |>.1

theorem scale_eq_step (v : α) (e : Expr α) : liftM (scale v e) = Calls.unbounded.scaleStep v e :=
  ((Calls.enough_next (2 * e.weight)).scale (le_refl _)).common
    ((Calls.enough_unbounded _).scale (le_refl _)) |>.1

theorem isZero_product (fs : List (Expr α)) : (product fs).isZero = fs.any isZero := by
  have hany : fs.anyM Calls.unbounded.isZero = .ok (fs.any isZero) := List.anyM_pure ..
  exact Except.ok.inj ((isZero_eq_step (product fs)).trans hany)

theorem isZero_matrix (g : Grid (Expr α)) : (matrix g).isZero = g.cells.all isZero := by
  have hall : g.cells.allM Calls.unbounded.isZero = .ok (g.cells.all isZero) := List.allM_pure ..
  exact Except.ok.inj ((isZero_eq_step (matrix g)).trans hall)

end

end Expr

end SymbolicAlgebra
