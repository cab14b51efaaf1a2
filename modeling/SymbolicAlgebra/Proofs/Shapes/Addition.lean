/-
  SymbolicAlgebra.Proofs.Shapes.Addition — adding values that have shapes.

  `Shaped` says that every node of a tree has a shape, those inside the cells of grids included.
  Addition keeps it, and gives two values of one shape a sum of that shape. There is one exception:
  where a value comes out as zero it may be the number zero, whatever shape it should have. `Fits`
  is the shape up to this exception.

  A zero that stands for a matrix never becomes a part of a sum: before a term goes into a sum it is
  added to what it merges with, or dropped. So the exception does not spread (`addTerm_shape`).
-/

import SymbolicAlgebra.Proofs.Shapes.Chains

namespace SymbolicAlgebra.Expr

variable {α : Type}

/-- The value has the shape, if there is one. -/
def HasShape (s? : Option Shape) (e : Expr α) : Prop := ∃ s, s? = some s ∧ e.shape = .ok s

theorem hasShape_some {s : Shape} {e : Expr α} : HasShape (some s) e ↔ e.shape = .ok s := by simp [HasShape]

theorem hasShape_sum {s? : Option Shape} {ts : List (Expr α)} (hne : ts ≠ []) (h : ∀ t ∈ ts, HasShape s? t) :
    HasShape s? (.sum ts) := by
  obtain ⟨t, ht⟩ := List.exists_mem_of_ne_nil ts hne
  obtain ⟨s, rfl, -⟩ := h t ht
  exact hasShape_some.mpr (shape_sum_eq_ok.mpr ⟨fun e => absurd e hne, fun t ht => hasShape_some.mp (h t ht)⟩)

/-! ## Trees whose nodes have shapes -/

/-- Every node of the tree has a shape. -/
inductive Shaped : Expr α → Prop
  | node {e : Expr α} {s : Shape} : e.shape = .ok s → (∀ x ∈ e.children, Shaped x) → Shaped e

namespace Shaped

theorem shape {e : Expr α} (h : Shaped e) : ∃ s, e.shape = .ok s := by
  cases h with
  | node hs _ => exact ⟨_, hs⟩

theorem children {e : Expr α} (h : Shaped e) : ∀ x ∈ e.children, Shaped x := by
  cases h with
  | node _ hc => exact hc

@[simp] theorem const (v : α) : Shaped (.const v) := .node rfl (by simp [Expr.children])

@[simp] theorem var (m : Monomial α) : Shaped (.var m) := .node rfl (by simp [Expr.children])

theorem sum {ts : List (Expr α)} {s : Shape} (hs : (Expr.sum ts).shape = .ok s) (h : ∀ t ∈ ts, Shaped t) :
    Shaped (.sum ts) := .node hs h

theorem product {fs : List (Expr α)} {s : Shape} (hs : factorsShape none fs = .ok s) (h : ∀ f ∈ fs, Shaped f) :
    Shaped (.product fs) := .node hs h

theorem matrix {g : Grid (Expr α)} (h : ∀ c ∈ g.cells, Shaped c) : Shaped (.matrix g) := .node rfl h

theorem terms {e : Expr α} (h : Shaped e) : ∀ t ∈ e.terms, Shaped t := by
  cases e with
  | sum ts => exact h.children
  | _ => exact fun t ht => List.mem_singleton.mp ht ▸ h

theorem factors {e : Expr α} (h : Shaped e) : ∀ f ∈ e.factors, Shaped f := by
  cases e with
  | product fs => exact h.children
  | _ => exact fun f hf => List.mem_singleton.mp hf ▸ h

/-- A grid with new cells. -/
theorem cells {β : Type} {xs : List β} {ys : List (Expr α)} {f : β → Expr α → Prop} {r c : Nat} (h : List.Forall₂ f xs ys)
    (hf : ∀ x ∈ xs, ∀ y, f x y → Shaped y) : Shaped (.matrix ⟨r, c, ys⟩) := matrix (forall_mem_right h hf)

theorem pair {a b c : Expr α} (h : pair a b = .ok c) (ha : Shaped a) (hb : Shaped b) : Shaped c := by
  obtain ⟨s, hs, hs', rfl⟩ := pair_eq_ok h
  exact sum (s := s) (shape_sum_eq_ok.mpr ⟨nofun, by simp [hs, hs']⟩) (by simp [ha, hb])

theorem checkedProduct {fs : List (Expr α)} {c : Expr α} (h : checkedProduct fs = .ok c) (hf : ∀ f ∈ fs, Shaped f) :
    Shaped c := by
  obtain ⟨s, hs, rfl⟩ := checkedProduct_eq_ok h
  exact product hs hf

theorem chain {a b c : Expr α} (h : chain a b = .ok c) (ha : Shaped a) (hb : Shaped b) : Shaped c :=
  checkedProduct h (List.forall_mem_append.mpr ⟨ha.factors, hb.factors⟩)

section
variable [Scalar α]

@[simp] theorem ofMonomial (m : Monomial α) : Shaped (ofMonomial m) := by
  rcases ofMonomial_const_or_var m with ⟨v, hc⟩ | hc
  · exact hc ▸ const v
  · exact hc ▸ var m

theorem collapse {e : Expr α} (h : Shaped e) : Shaped e.collapse := by
  cases e with
  | var m => exact ofMonomial m
  | _ => exact h

theorem ofTerms {ts : List (Expr α)} {s? : Option Shape} (h : ∀ t ∈ ts, Shaped t) (hs : ∀ t ∈ ts, HasShape s? t) :
    Shaped (ofTerms ts) := by
  rcases ofTerms_cases ts with ⟨-, hc⟩ | ⟨t, rfl, -⟩ | ⟨hlength, hc⟩
  · exact hc ▸ const 0
  · exact h t (List.mem_singleton.mpr rfl)
  · obtain ⟨s, -, hs⟩ := hasShape_sum (List.ne_nil_of_length_pos (by omega)) hs
    exact hc ▸ sum hs h

theorem ofFactors {fs : List (Expr α)} {s : Shape} (hs : factorsShape none fs = .ok s) (h : ∀ f ∈ fs, Shaped f) :
    Shaped (ofFactors fs) := by
  rcases ofFactors_cases fs with ⟨-, hc⟩ | ⟨f, rfl, -⟩ | ⟨-, hc⟩
  · exact hc ▸ const 1
  · exact h f (List.mem_singleton.mpr rfl)
  · exact hc ▸ product hs h

theorem mulConstant {v : α} {fs : List (Expr α)} {s : Shape} (hs : factorsShape none fs = .ok s)
    (h : ∀ f ∈ fs, Shaped f) : Shaped (mulConstant v fs) := by
  rcases mulConstant_cases v fs with ⟨-, hc⟩ | ⟨-, hc⟩ | ⟨w, rest, rfl, ⟨-, hc⟩ | hc⟩ | ⟨-, hc⟩
  · exact hc ▸ const 0
  · exact hc ▸ product hs h
  · exact hc ▸ ofFactors (s := s) hs (List.forall_mem_cons.mp h).2
  · exact hc ▸ product (s := s) hs (List.forall_mem_cons.mpr ⟨const _, (List.forall_mem_cons.mp h).2⟩)
  · exact hc ▸ product (s := s) hs (List.forall_mem_cons.mpr ⟨const v, h⟩)

theorem prependFactor {a c : Expr α} {fs : List (Expr α)} {s : Shape} (h : prependFactor a fs = .ok c) (ha : Shaped a)
    (hs : factorsShape none fs = .ok s) (hf : ∀ f ∈ fs, Shaped f) : Shaped c := by
  rcases prependFactor_cases h with ⟨v, -, rfl⟩ | ⟨-, h⟩
  · exact mulConstant hs hf
  · exact checkedProduct h (List.forall_mem_cons.mpr ⟨ha, hf⟩)

theorem splitFrom {v : α} {fs : List (Expr α)} (h : ∀ f ∈ fs, Shaped f) : ∀ f ∈ (splitFrom v fs).2, Shaped f :=
  forall_splitFrom (fun _ _ => var _) h

theorem flipSign {e : Expr α} (h : Shaped e) : Shaped e.flipSign := by
  cases e with
  | const v => exact const _
  | var m => exact var _
  | _ => exact h

theorem negFactors {fs : List (Expr α)} (h : ∀ f ∈ fs, Shaped f) : ∀ f ∈ negFactors fs, Shaped f :=
  forall_negFactors (fun _ => flipSign) (const _) h

theorem neg {e : Expr α} (h : Shaped e) : Shaped e.neg := by
  induction e with
  | const v => exact const _
  | var m => exact var _
  | sum ts ih =>
    obtain ⟨s, hs⟩ := h.shape
    refine .node (by rw [shape_neg, hs]) ?_
    rw [Expr.neg, negAll_eq_map]
    exact List.forall_mem_map.mpr fun t ht => ih t ht (h.children t ht)
  | product fs _ =>
    obtain ⟨s, hs⟩ := h.shape
    exact .node (by rw [shape_neg, hs]) (negFactors h.children)
  | matrix g ih =>
    rw [Expr.neg, negAll_eq_map]
    exact matrix (List.forall_mem_map.mpr fun c hc => ih c hc (h.children c hc))

end

end Shaped

/-! ## Shapes up to zero -/

variable [Scalar α]

/-- A number as good as zero. -/
def NearZero (e : Expr α) : Prop := ∃ v, e = .const v ∧ Scalar.nearZero v = true

/-- The value has the shape or is a number as good as zero. -/
def Fits (s? : Option Shape) (e : Expr α) : Prop := e.NearZero ∨ HasShape s? e

namespace Fits

variable {s? : Option Shape} {s : Shape} {e : Expr α}

theorem of_shape (h : e.shape = .ok s) : Fits (some s) e := Or.inr ⟨s, rfl, h⟩

/-- Only a number can be out of shape. -/
theorem shape_of_kind (h : Fits s? e) (hk : e.kind ≠ .constant) : HasShape s? e := by
  rcases h with ⟨v, rfl, -⟩ | h
  · exact absurd rfl hk
  · exact h

theorem collapse (h : Fits s? e) : Fits s? e.collapse := by
  rcases h with ⟨v, rfl, hv⟩ | ⟨s, hs, he⟩
  · exact Or.inl ⟨v, rfl, hv⟩
  · exact Or.inr ⟨s, hs, by rw [shape_collapse, he]⟩

/-- Numbers that fit give numbers that fit: if the first is not zero, all are in shape. -/
theorem numbers {v w : α} (hv : Fits s? (.const v)) (hw : Fits s? (.const w)) :
    Fits s? (.const (if Scalar.nearZero v then w else v + w)) := by
  split
  · exact hw
  · rename_i hz
    rcases hv with ⟨v', hv', hz'⟩ | ⟨s, hs, he⟩
    · cases hv'
      exact absurd hz' hz
    · cases he
      exact Or.inr ⟨_, hs, rfl⟩

variable (zero : Scalar.nearZero (0 : α) = true)
include zero

theorem zero_const : Fits s? (.const (0 : α)) := Or.inl ⟨0, rfl, zero⟩

theorem ofTerms {ts : List (Expr α)} (h : ∀ t ∈ ts, HasShape s? t) : Fits s? (ofTerms ts) := by
  rcases ofTerms_cases ts with ⟨-, hc⟩ | ⟨t, rfl, -⟩ | ⟨hlength, hc⟩
  · exact hc ▸ zero_const zero
  · exact Or.inr (h t (List.mem_singleton.mpr rfl))
  · exact hc ▸ Or.inr (hasShape_sum (List.ne_nil_of_length_pos (by omega)) h)

omit zero in
theorem ofFactors {fs : List (Expr α)} (hs : factorsShape none fs = .ok s) : Fits (some s) (ofFactors fs) := by
  rcases ofFactors_cases fs with ⟨rfl, -⟩ | ⟨f, rfl, hc⟩ | ⟨-, hc⟩
  · exact of_shape hs
  · rw [factorsShape_single] at hs
    exact hc ▸ of_shape hs
  · exact hc ▸ of_shape hs

theorem mulConstant {v : α} {fs : List (Expr α)} (hs : factorsShape none fs = .ok s) :
    Fits (some s) (mulConstant v fs) := by
  rcases mulConstant_cases v fs with ⟨-, hc⟩ | ⟨-, hc⟩ | ⟨w, rest, rfl, ⟨-, hc⟩ | hc⟩ | ⟨-, hc⟩
  · exact hc ▸ zero_const zero
  · exact hc ▸ of_shape hs
  · exact hc ▸ ofFactors hs
  · exact hc ▸ of_shape hs
  · exact hc ▸ of_shape hs

theorem prependFactor {m : Monomial α} {c : Expr α} {fs : List (Expr α)} (h : prependFactor (.ofMonomial m) fs = .ok c)
    (hs : factorsShape none fs = .ok s) : Fits (some s) c := by
  rcases prependFactor_cases h with ⟨v, -, rfl⟩ | ⟨-, h⟩
  · exact mulConstant zero hs
  · obtain ⟨t, ht, rfl⟩ := checkedProduct_eq_ok h
    rw [factorsShape_skip (shape_ofMonomial m)] at ht
    exact of_shape (by rw [shape, factorsShape_skip (shape_ofMonomial m), hs])

end Fits

/-! ## Addition and scaling -/

/-- What addition does to shapes. Two numbers are left out, since they may both stand for something else. -/
def AddsShapes (a b c : Expr α) : Prop :=
  (Shaped a → Shaped b → Shaped c) ∧
    (a.kind ≠ .constant ∨ b.kind ≠ .constant → ∀ s?, Fits s? a → Fits s? b → Fits s? c)

/-- What multiplication by a number does to shapes. -/
def ScalesShapes (_ : α) (e c : Expr α) : Prop := (Shaped e → Shaped c) ∧ ∀ s, e.shape = .ok s → Fits (some s) c

/-- An addition keeps trees and values in shape. -/
def KeepsShapes {ε : Type} (add : Expr α → Expr α → Except ε (Expr α)) : Prop :=
  ∀ a b c, add a b = .ok c → (Shaped a → Shaped b → Shaped c) ∧ ∀ s?, Fits s? a → Fits s? b → Fits s? c

theorem keepsShapes_of_adds {ε : Type} {add : Expr α → Expr α → Except ε (Expr α)}
    (hadd : ∀ a b c, add a b = .ok c → AddsShapes a b c)
    (hnumbers : ∀ v w c, add (.const v) (.const w) = .ok c → c = .const (if Scalar.nearZero v then w else v + w)) :
    KeepsShapes add := by
  intro a b c h
  obtain ⟨hshaped, hfits⟩ := hadd a b c h
  refine ⟨hshaped, fun s? ha hb => ?_⟩
  by_cases hk : a.kind ≠ .constant ∨ b.kind ≠ .constant
  · exact hfits hk s? ha hb
  · cases a with
    | const v =>
      cases b with
      | const w =>
        rw [hnumbers v w c h]
        exact ha.numbers hb
      | _ => simp [kind] at hk
    | _ => simp [kind] at hk

theorem KeepsShapes.foldlM {ε : Type} {add : Expr α → Expr α → Except ε (Expr α)} (hadd : KeepsShapes add)
    {t c : Expr α} {ts : List (Expr α)} (h : ts.foldlM add t = .ok c) :
    ((∀ u ∈ t :: ts, Shaped u) → Shaped c) ∧ ∀ s?, (∀ u ∈ t :: ts, Fits s? u) → Fits s? c := by
  refine ⟨fun hus => ?_, fun s? hus => ?_⟩
  · obtain ⟨ht, hts⟩ := List.forall_mem_cons.mp hus
    exact foldlM_keeps h ht fun s hs x hx s' hs' => (hadd _ _ _ hs').1 hs (hts x hx)
  · obtain ⟨ht, hts⟩ := List.forall_mem_cons.mp hus
    exact foldlM_keeps h ht fun s hs x hx s' hs' => (hadd _ _ _ hs').2 s? hs (hts x hx)

/-- What has the shape of the left operand fits, if that is no number and so is in its place. -/
theorem addsShapes_of_left {a b c : Expr α} (hk : a.kind ≠ .constant) (hshaped : Shaped a → Shaped b → Shaped c)
    (hfits : ∀ s, a.shape = .ok s → Fits (some s) c) : AddsShapes a b c := by
  refine ⟨hshaped, fun _ s? ha _ => ?_⟩
  obtain ⟨s, rfl, hs⟩ := ha.shape_of_kind hk
  exact hfits s hs

theorem addsShapes_of_right {a b c : Expr α} (hk : b.kind ≠ .constant) (hshaped : Shaped a → Shaped b → Shaped c)
    (hfits : ∀ s, b.shape = .ok s → Fits (some s) c) : AddsShapes a b c := by
  refine ⟨hshaped, fun _ s? _ hb => ?_⟩
  obtain ⟨s, rfl, hs⟩ := hb.shape_of_kind hk
  exact hfits s hs

/-- Two values side by side, the left one perhaps tidied. -/
theorem addsShapes_of_pair {a a' b c : Expr α} (h : pair a' b = .ok c) (hshaped : Shaped a → Shaped a')
    (hshape : a'.shape = a.shape) : AddsShapes a b c := by
  refine ⟨fun ha => Shaped.pair h (hshaped ha), fun hk s? ha hb => ?_⟩
  obtain ⟨s, hs, hs', rfl⟩ := pair_eq_ok h
  have hsum : (sum [a', b]).shape = .ok s := shape_sum_eq_ok.mpr ⟨nofun, by simp [hs, hs']⟩
  -- One of the two is no number, so its shape is the one asked for.
  rcases hk with hk | hk
  · obtain ⟨t, rfl, ht⟩ := ha.shape_of_kind hk
    rw [← hshape, hs] at ht
    cases ht
    exact .of_shape hsum
  · obtain ⟨t, rfl, ht⟩ := hb.shape_of_kind hk
    rw [hs'] at ht
    cases ht
    exact .of_shape hsum

section
variable {n : Nat} (zero : Scalar.nearZero (0 : α) = true)
  (hcall : (Calls.upTo n).Obeys (α := α) AddsShapes (fun _ => True) ScalesShapes)

theorem Calls.upTo_add_numbers {v w : α} {c : Expr α} (h : (Calls.upTo n).add (.const v) (.const w) = .ok c) :
    c = .const (if Scalar.nearZero v then w else v + w) := by
  cases n with
  | zero => cases h
  | succ n =>
    simp only [Calls.upTo, addWithin, Calls.addStep] at h
    split at h
    · rename_i hv
      rw [if_pos hv, ← pure_eq_ok.mp h]
    · rename_i hv
      rw [if_neg hv, ← pure_eq_ok.mp h]

theorem Calls.upTo_isZero_number {v : α} {z : Bool} (h : (Calls.upTo n).isZero (.const v) = .ok z) :
    z = Scalar.nearZero v := by
  cases n with
  | zero => cases h
  | succ n => exact (pure_eq_ok.mp h).symm

include hcall

theorem upTo_keepsShapes : KeepsShapes (α := α) (Calls.upTo n).add :=
  keepsShapes_of_adds (fun _ _ _ h => hcall.add h) fun _ _ _ h => Calls.upTo_add_numbers h

/-- A term that is added keeps the terms in shape: what comes out as zero is dropped. -/
theorem addTerm_shape {s : Shape} {ts us : List (Expr α)} {t : Expr α} (h : (Calls.upTo n).addTerm ts t = .ok us)
    (hts : ∀ x ∈ ts, x.shape = .ok s) (ht : t.shape = .ok s) : ∀ u ∈ us, u.shape = .ok s := by
  rcases Calls.addTerm_cases h with ⟨-, rfl⟩ | rfl | ⟨xs, x, ys, m, rfl, -, hm, hus⟩
  · exact hts
  · exact List.forall_mem_append.mpr ⟨hts, by simpa using ht⟩
  · obtain ⟨hxs, hx⟩ := List.forall_mem_append.mp hts
    obtain ⟨hx, hys⟩ := List.forall_mem_cons.mp hx
    have hfits := (upTo_keepsShapes hcall x t m hm).2 (some s) (.of_shape hx) (.of_shape ht)
    rcases hus with ⟨hz, rfl⟩ | ⟨-, rfl⟩
    · have hms : m.shape = .ok s := by
        rcases hfits with ⟨v, rfl, hv⟩ | ⟨s', hs', hms⟩
        · rcases hz with hk | hz
          · cases hk
          · rw [← Calls.upTo_isZero_number hz] at hv
            cases hv
        · cases hs'
          exact hms
      exact List.forall_mem_append.mpr ⟨hxs, List.forall_mem_cons.mpr ⟨hms, hys⟩⟩
    · exact List.forall_mem_append.mpr ⟨hxs, hys⟩

theorem addTerm_shaped {ts us : List (Expr α)} {t : Expr α} (h : (Calls.upTo n).addTerm ts t = .ok us)
    (hts : ∀ x ∈ ts, Shaped x) (ht : Shaped t) : ∀ u ∈ us, Shaped u :=
  Calls.forall_addTerm (fun _ _ _ hm => (hcall.add hm).1) h hts ht

include zero

/-- A value goes into a sum of its own shape, which stays the shape of the sum. -/
theorem addToSum_shapes {ts : List (Expr α)} {b c : Expr α} (h : (Calls.upTo n).addToSum ts b = .ok c) :
    ∃ s, (Expr.sum ts).shape = .ok s ∧ b.shape = .ok s ∧ Fits (some s) c ∧
      ((∀ t ∈ ts, Shaped t) → Shaped b → Shaped c) := by
  obtain ⟨s, us, hs, hb, hus, rfl⟩ := Calls.addToSum_eq_ok h
  have hterms : ∀ t ∈ b.terms, t.shape = .ok s := by
    cases b with
    | sum us => exact (shape_sum_eq_ok.mp hb).2
    | _ => exact fun t ht => List.mem_singleton.mp ht ▸ hb
  have hshape : ∀ u ∈ us, u.shape = .ok s :=
    foldlM_keeps (P := fun ts => ∀ t ∈ ts, t.shape = .ok s) hus (shape_sum_eq_ok.mp hs).2
      fun ts hts t ht ts' hts' => addTerm_shape hcall hts' hts (hterms t ht)
  have hshape : ∀ u ∈ us, HasShape (some s) u := fun u hu => hasShape_some.mpr (hshape u hu)
  refine ⟨s, hs, hb, Fits.ofTerms zero hshape, fun hts hb => Shaped.ofTerms ?_ hshape⟩
  exact foldlM_keeps (P := fun ts => ∀ t ∈ ts, Shaped t) hus hts
    fun ts hts t ht ts' hts' => addTerm_shaped hcall hts' hts (hb.terms t ht)

theorem scaleFactors_shapes {v : α} {fs : List (Expr α)} {c : Expr α} {s : Shape}
    (h : (Calls.upTo n).scaleFactors v fs = .ok c) (hs : factorsShape none fs = .ok s) :
    Fits (some s) c ∧ ((∀ f ∈ fs, Shaped f) → Shaped c) := by
  rcases Calls.scaleFactors_cases h with ⟨-, rfl⟩ | ⟨-, ⟨rfl, rfl⟩ | ⟨f, rfl, hc⟩ | ⟨-, ⟨-, rfl⟩ | rfl⟩⟩
  · exact ⟨.zero_const zero, fun _ => .const 0⟩
  · exact ⟨.of_shape hs, fun _ => .const v⟩
  · have hf : f.shape = .ok s := by rw [← factorsShape_single, hs]
    rcases Calls.scaleFactor_cases hc with hc | ⟨g, rfl, ⟨-, rfl⟩ | ⟨-, rfl⟩ | ⟨cs, hcs, rfl⟩⟩
    · obtain ⟨hshaped, hfits⟩ := hcall.scale hc
      exact ⟨hfits s hf, fun h => hshaped (h f (List.mem_singleton.mpr rfl))⟩
    · exact ⟨.of_shape hf, fun h => h _ (List.mem_singleton.mpr rfl)⟩
    · exact ⟨.of_shape (by rw [shape_neg, hf]), fun h => (h _ (List.mem_singleton.mpr rfl)).neg⟩
    · refine ⟨.of_shape hf, fun h => Shaped.cells hcs fun x hx y hy => ?_⟩
      exact (hcall.scale hy).1 ((h _ (List.mem_singleton.mpr rfl)).children x hx)
  · exact ⟨.of_shape hs, fun h => .product hs h⟩
  · exact ⟨.of_shape hs, fun h => .product (s := s) hs (List.forall_mem_cons.mpr ⟨.const v, h⟩)⟩

theorem callSumOf_shapes {us : List (Expr α)} {c : Expr α} (h : (Calls.upTo n).sumOf us = .ok c) :
    ((∀ u ∈ us, Shaped u) → Shaped c) ∧ ∀ s?, (∀ u ∈ us, Fits s? u) → Fits s? c := by
  unfold Calls.sumOf at h
  split at h
  · cases pure_eq_ok.mp h
    exact ⟨fun _ => .const 0, fun _ _ => .zero_const zero⟩
  · exact (upTo_keepsShapes hcall).foldlM h

theorem addsShapes_of_case {a b c : Expr α} (h : Calls.AddCase (.upTo n) a b c) : AddsShapes a b c := by
  cases h with
  | grids _ hcs =>
    refine addsShapes_of_left (by simp [kind]) (fun ha hb => ?_) fun s hs => .of_shape hs
    refine Shaped.cells hcs fun p hp y hy => ?_
    obtain ⟨hx, hy'⟩ := List.of_mem_zip hp
    exact (hcall.add hy).1 (ha.children _ hx) (hb.children _ hy')
  | gridScalar _ _ hcs =>
    refine addsShapes_of_left (by simp [kind]) (fun ha hb => ?_) fun s hs => .of_shape hs
    exact Shaped.cells hcs fun x hx y hy => (hcall.add hy).1 (ha.children x hx) hb
  | scalarGrid _ _ hcs =>
    refine addsShapes_of_right (by simp [kind]) (fun ha hb => ?_) fun s hs => .of_shape hs
    exact Shaped.cells hcs fun x hx y hy => (hcall.add hy).1 ha (hb.children x hx)
  | zeroLeft => exact ⟨fun _ hb => hb, fun _ _ _ hb => hb⟩
  | zeroRight => exact ⟨fun ha _ => ha.collapse, fun _ _ ha _ => ha.collapse⟩
  | numbers => exact ⟨fun _ _ => .const _, fun hk => by simp [kind] at hk⟩
  | monomials =>
    refine addsShapes_of_left (by simp [kind]) (fun _ _ => .ofMonomial _) fun s hs => ?_
    cases hs
    exact .of_shape (shape_ofMonomial _)
  | sumLeft _ h =>
    obtain ⟨s, hs, -, hfits, hshaped⟩ := addToSum_shapes zero hcall h
    refine addsShapes_of_left (by simp [kind]) (fun ha hb => hshaped ha.children hb) fun s' hs' => ?_
    cases hs.symm.trans hs'
    exact hfits
  | sumRight _ _ h =>
    obtain ⟨s, hs, -, hfits, hshaped⟩ := addToSum_shapes zero hcall h
    refine addsShapes_of_right (by simp [kind]) (fun ha hb => hshaped hb.children ha.collapse) fun s' hs' => ?_
    cases hs.symm.trans hs'
    exact hfits
  | @products fs gs _ h =>
    rcases Calls.addProducts_cases h with h | ⟨-, h⟩
    · exact addsShapes_of_pair h id rfl
    · -- The factors that are left have the shape of the product.
      have left (s : Shape) (hs : (product fs).shape = .ok s) : factorsShape none (splitCoefficient fs).2 = .ok s := by
        rw [splitCoefficient, factorsShape_splitFrom]
        exact hs
      refine addsShapes_of_left (by simp [kind]) (fun ha _ => ?_) fun s hs =>
        (scaleFactors_shapes zero hcall h (left s hs)).1
      obtain ⟨s, hs⟩ := ha.shape
      exact (scaleFactors_shapes zero hcall h (left s hs)).2 (Shaped.splitFrom ha.children)
  | beside h => exact addsShapes_of_pair h Shaped.collapse (shape_collapse _)

theorem scalesShapes_of_case {v : α} {e c : Expr α} (h : Calls.ScaleCase (.upTo n) v e c) : ScalesShapes v e c := by
  cases h with
  | grid hcs =>
    refine ⟨fun he => Shaped.cells hcs fun x hx y hy => (hcall.scale hy).1 (he.children x hx), fun s hs => ?_⟩
    exact .of_shape hs
  | zero => exact ⟨fun _ => .const 0, fun _ _ => .zero_const zero⟩
  | one => exact ⟨id, fun _ hs => .of_shape hs⟩
  | minusOne => exact ⟨Shaped.neg, fun _ hs => .of_shape (by rw [shape_neg, hs])⟩
  | number => exact ⟨fun _ => .const _, fun _ hs => .of_shape hs⟩
  | monomial => exact ⟨fun _ => .ofMonomial _, fun _ hs => .of_shape (by rw [shape_ofMonomial, ← hs, shape])⟩
  | sum hus h =>
    obtain ⟨hshaped, hfits⟩ := callSumOf_shapes zero hcall h
    refine ⟨fun he => hshaped ?_, fun s hs => hfits (some s) ?_⟩
    · exact forall_mem_right hus fun x hx y hy => (hcall.scale hy).1 (he.children x hx)
    · exact forall_mem_right hus fun x hx y hy => (hcall.scale hy).2 s ((shape_sum_eq_ok.mp hs).2 x hx)
  | product =>
    refine ⟨fun he => ?_, fun s hs => Fits.mulConstant zero hs⟩
    obtain ⟨s, hs⟩ := he.shape
    exact Shaped.mulConstant hs he.children

end

section
variable (zero : Scalar.nearZero (0 : α) = true)
include zero

theorem shape_laws : AdditiveLaws (α := α) AddsShapes (fun _ => True) ScalesShapes where
  add hcall h := addsShapes_of_case zero hcall h
  isZero _ _ := trivial
  scale hcall h := scalesShapes_of_case zero hcall h
  pair h := addsShapes_of_pair h id rfl
  chain := by
    intro v e c h
    refine ⟨fun he => Shaped.chain h (.const v) he, fun s hs => ?_⟩
    obtain ⟨t, ht, rfl⟩ := checkedProduct_eq_ok h
    rw [← factorsShape_factors] at hs
    exact .of_shape hs

omit zero in
theorem add_numbers_eq_ok (v w : α) :
    (Expr.const v).add (.const w) = .ok (.const (if Scalar.nearZero v then w else v + w)) := by
  simp only [Expr.add, addWithin, Calls.addStep]
  split
  · rfl
  · rfl

theorem add_keepsShapes : KeepsShapes (α := α) Expr.add := by
  refine keepsShapes_of_adds (fun a b c h => (shape_laws zero).of_add h) fun v w c h => ?_
  rw [add_numbers_eq_ok] at h
  cases h
  rfl

theorem sumOf_shapes {us : List (Expr α)} {c : Expr α} (h : sumOf us = .ok c) :
    ((∀ u ∈ us, Shaped u) → Shaped c) ∧ ∀ s?, (∀ u ∈ us, Fits s? u) → Fits s? c := by
  unfold sumOf at h
  split at h
  · cases pure_eq_ok.mp h
    exact ⟨fun _ => .const 0, fun _ _ => .zero_const zero⟩
  · exact (add_keepsShapes zero).foldlM h

end

theorem isZero_const (v : α) : (Expr.const v).isZero = Scalar.nearZero v := rfl

/-- What is not zero is in shape. -/
theorem Fits.hasShape {s? : Option Shape} {e : Expr α} (h : Fits s? e) (hz : e.isZero = false) : HasShape s? e := by
  rcases h with ⟨v, rfl, hv⟩ | h
  · rw [isZero_const, hv] at hz
    cases hz
  · exact h

end SymbolicAlgebra.Expr
