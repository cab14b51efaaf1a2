/-
  SymbolicAlgebra.Proofs.Matching — when two lists hold the same factors.

  Trees are the same if they are the same nodes with the same children (`Expr.beq_iff_node`). Whether that
  is equality depends on the numbers. Over exact fractions it is. Binary numbers are compared with zeros of
  both signs equal and NaN equal to nothing (`Binary64.beq_iff`), so being the same tree is symmetric and
  transitive, and a tree without NaN is the same as itself (`Expr.NaNFree.beq_self`).

  Factors are matched one after the other, each with the first of the other list that is the same and
  still free. It does not matter which of several candidates is taken: they are the same as one another,
  so whatever could be matched with the one can be matched with the other (`matched_cons`). Nor does the
  order in which the rest is kept (`sameFactorsBySwapping_eq`). So no choice stands in the way of a later
  match, and matching succeeds exactly if one list is the other in some order (`sameFactors_of_scalars`).
-/

import SymbolicAlgebra.Binary64
import SymbolicAlgebra.Proofs.Everywhere

namespace SymbolicAlgebra

/-! ## Being the same number -/

namespace Binary64

open Float.Model (UnpackedFloat)

/-- The number that an unpacked one stands for: the two zeros are one, and NaN is none. -/
def number? : UnpackedFloat → Option UnpackedFloat
  | .notANumber => none
  | .zero _ => some (.zero .positive)
  | v => some v

theorem compare_eq_iff {a b : UnpackedFloat} : a.compare b = some .eq ↔ number? a ≠ none ∧ number? a = number? b := by
  cases a with
  | notANumber => simp [UnpackedFloat.compare, number?]
  | infinity s =>
    cases b with
    | infinity t => cases s <;> cases t <;> simp [UnpackedFloat.compare, number?] <;> decide
    | _ => cases s <;> simp [UnpackedFloat.compare, number?]
  | zero s =>
    cases b with
    | infinity t => cases t <;> simp [UnpackedFloat.compare, number?]
    | finite t => cases t <;> simp [UnpackedFloat.compare, number?]
    | _ => simp [UnpackedFloat.compare, number?]
  | finite s m k h =>
    cases b with
    | infinity t => cases s <;> cases t <;> simp [UnpackedFloat.compare, number?]
    | finite t n l h' => cases s <;> cases t <;> simp [UnpackedFloat.compare, number?, Ordering.then_eq_eq, and_comm]
    | _ => cases s <;> simp [UnpackedFloat.compare, number?]

theorem beq_iff {v w : Float} : (v == w) = true ↔
    number? v.toModel.unpack ≠ none ∧ number? v.toModel.unpack = number? w.toModel.unpack := by
  rw [← compare_eq_iff]
  show (v.toModel.unpack.compare w.toModel.unpack == some .eq) = true ↔ _
  rw [beq_iff_eq]

instance partialEquivBEq : PartialEquivBEq Float where
  symm h := by
    obtain ⟨hv, heq⟩ := beq_iff.mp h
    exact beq_iff.mpr ⟨heq ▸ hv, heq.symm⟩
  trans h h' := by
    obtain ⟨hu, heq⟩ := beq_iff.mp h
    exact beq_iff.mpr ⟨hu, heq.trans (beq_iff.mp h').2⟩

theorem beq_self_iff {v : Float} : (v == v) = true ↔ v.isNaN = false := by
  rw [beq_iff]
  show _ ↔ v.toModel.unpack.isNaN = false
  cases v.toModel.unpack <;> simp [number?, UnpackedFloat.isNaN]

end Binary64

/-! ## Being the same tree -/

namespace Expr

variable {α : Type}

/-- Every number in the tree meets the condition. -/
def Numbers (P : α → Prop) (e : Expr α) : Prop :=
  (∀ v, Occurs (.const v) e → P v) ∧ ∀ m, Occurs (.var m) e → P m.quantity ∧ P m.exponent

theorem Numbers.child {P : α → Prop} {e c : Expr α} (h : Numbers P e) (hc : c ∈ e.children) : Numbers P c :=
  ⟨fun v ho => h.1 v (.child hc ho), fun m ho => h.2 m (.child hc ho)⟩

theorem isScalar_iff {e : Expr α} : e.isScalar = true ↔ e.shape = .ok .scalar := by
  unfold isScalar
  split
  · rename_i s hs
    simp [hs, Shape.isScalar]
  · rename_i hs
    simp [hs]

variable [Scalar α] {e f g : Expr α} {es fs gs : List (Expr α)}

/-- The same trees one by one. -/
def SameAll (es fs : List (Expr α)) : Prop := List.Forall₂ (fun e f => (e == f) = true) es fs

theorem beqAll_iff_sameAll : beqAll es fs = true ↔ SameAll es fs := by
  unfold SameAll
  induction es generalizing fs with
  | nil => cases fs <;> simp [beqAll]
  | cons e es ih =>
    cases fs with
    | nil => simp [beqAll]
    | cons f fs =>
      rw [beqAll, Bool.and_eq_true, ih, List.forall₂_cons]
      rfl

/-- The same node, its children aside. -/
inductive SameNode : Expr α → Expr α → Prop
  | const {v w : α} : (v == w) = true → SameNode (.const v) (.const w)
  | var {m n : Monomial α} : m.beq n = true → SameNode (.var m) (.var n)
  | sum (ts us : List (Expr α)) : SameNode (.sum ts) (.sum us)
  | product (fs gs : List (Expr α)) : SameNode (.product fs) (.product gs)
  | matrix {g k : Grid (Expr α)} : g.shape = k.shape → SameNode (.matrix g) (.matrix k)

/-- The same tree is the same node with the same children. -/
theorem beq_iff_node : (e == f) = true ↔ SameNode e f ∧ SameAll e.children f.children := by
  change e.beq f = true ↔ _
  constructor
  · intro h
    cases e with
    | const v =>
      cases f with
      | const w => exact ⟨.const h, .nil⟩
      | _ => cases h
    | var m =>
      cases f with
      | var n => exact ⟨.var h, .nil⟩
      | _ => cases h
    | sum ts =>
      cases f with
      | sum us => exact ⟨.sum ts us, beqAll_iff_sameAll.mp h⟩
      | _ => cases h
    | product fs =>
      cases f with
      | product gs => exact ⟨.product fs gs, beqAll_iff_sameAll.mp h⟩
      | _ => cases h
    | matrix g =>
      cases f with
      | matrix k =>
        simp only [Expr.beq, Bool.and_eq_true, beq_iff_eq] at h
        exact ⟨.matrix (congrArg₂ Shape.mk h.1.1 h.1.2), beqAll_iff_sameAll.mp h.2⟩
      | _ => cases h
  · rintro ⟨hnode, hchildren⟩
    have hall := beqAll_iff_sameAll.mpr hchildren
    cases hnode with
    | const h => exact h
    | var h => exact h
    | sum => exact hall
    | product => exact hall
    | matrix h =>
      obtain ⟨hr, hc⟩ := Shape.mk.inj h
      simp only [Expr.beq, hr, hc, beq_self_eq_true, Bool.true_and]
      exact hall

/-- A tree in which every number equals itself is the same as itself. -/
theorem beq_self_of_numbers (h : Numbers (fun v => (v == v) = true) e) : (e == e) = true := by
  induction e using children_induction with
  | node e ih =>
    refine beq_iff_node.mpr ⟨?_, List.forall₂_same.mpr fun c hc => ih c hc (h.child hc)⟩
    cases e with
    | const v => exact .const (h.1 v .root)
    | var m => exact .var (by simp [Monomial.beq, h.2 m .root])
    | sum ts => exact .sum ts ts
    | product fs => exact .product fs fs
    | matrix g => exact .matrix rfl

/-- Where only equal numbers are the same, the same node with equal children is the same tree. -/
theorem SameNode.eq [LawfulBEq α] (h : SameNode e f) (hc : e.children = f.children) : e = f := by
  cases h with
  | const h => rw [eq_of_beq h]
  | @var m n h =>
    obtain ⟨name, quantity, exponent⟩ := m
    obtain ⟨name', quantity', exponent'⟩ := n
    simp only [Monomial.beq, Bool.and_eq_true, beq_iff_eq] at h
    rw [h.1.1, h.1.2, h.2]
  | sum => exact congrArg Expr.sum hc
  | product => exact congrArg Expr.product hc
  | @matrix g k h =>
    obtain ⟨rows, cols, cells⟩ := g
    obtain ⟨rows', cols', cells'⟩ := k
    obtain ⟨hr, hcols⟩ := Shape.mk.inj h
    rw [show rows = rows' from hr, show cols = cols' from hcols, show cells = cells' from hc]

instance [LawfulBEq α] : LawfulBEq (Expr α) where
  eq_of_beq {e f} h := by
    induction e using children_induction generalizing f with
    | node e ih =>
      obtain ⟨hnode, hchildren⟩ := beq_iff_node.mp h
      have heq : List.Forall₂ Eq e.children f.children := forall₂_of_mem hchildren fun c hc d => ih c hc
      exact hnode.eq (List.forall₂_eq_eq_eq ▸ heq)
  rfl := beq_self_of_numbers ⟨fun v _ => beq_self_eq_true v, fun m _ => ⟨beq_self_eq_true _, beq_self_eq_true _⟩⟩

theorem sameAll_iff_eq [LawfulBEq α] : SameAll es fs ↔ es = fs := by
  simp [SameAll, List.forall₂_eq_eq_eq]

variable [PartialEquivBEq α]

theorem SameNode.symm (h : SameNode e f) : SameNode f e := by
  cases h with
  | const h => exact .const (BEq.symm h)
  | var h =>
    simp only [Monomial.beq, Bool.and_eq_true] at h
    exact .var (by simp [Monomial.beq, BEq.symm h.1.1, BEq.symm h.1.2, BEq.symm h.2])
  | sum ts us => exact .sum us ts
  | product fs gs => exact .product gs fs
  | matrix h => exact .matrix h.symm

theorem SameNode.trans (h : SameNode e f) (h' : SameNode f g) : SameNode e g := by
  cases h with
  | const h =>
    cases h' with
    | const h' => exact .const (BEq.trans h h')
  | var h =>
    cases h' with
    | var h' =>
      simp only [Monomial.beq, Bool.and_eq_true] at h h'
      exact .var (by simp [Monomial.beq, BEq.trans h.1.1 h'.1.1, BEq.trans h.1.2 h'.1.2, BEq.trans h.2 h'.2])
  | sum ts us =>
    cases h' with
    | sum _ vs => exact .sum ts vs
  | product fs gs =>
    cases h' with
    | product _ ks => exact .product fs ks
  | matrix h =>
    cases h' with
    | matrix h' => exact .matrix (h.trans h')

instance : PartialEquivBEq (Expr α) where
  symm {e f} h := by
    induction e using children_induction generalizing f with
    | node e ih =>
      obtain ⟨hnode, hchildren⟩ := beq_iff_node.mp h
      exact beq_iff_node.mpr ⟨hnode.symm, (forall₂_of_mem hchildren fun c hc d => ih c hc).flip⟩
  trans {e f g} h h' := by
    induction e using children_induction generalizing f g with
    | node e ih =>
      obtain ⟨hnode, hchildren⟩ := beq_iff_node.mp h
      obtain ⟨hnode', hchildren'⟩ := beq_iff_node.mp h'
      refine beq_iff_node.mpr ⟨hnode.trans hnode', forall₂_of_mem (forall₂_comp hchildren hchildren') ?_⟩
      rintro c hc d ⟨b, hcb, hbd⟩
      exact ih c hc hcb hbd

/-! ## Matching -/

/-- Some of the trees of the second list are those of the first, in some order. -/
def Matched (es fs : List (Expr α)) : Prop := ∃ gs free, fs.Perm (gs ++ free) ∧ SameAll es gs

omit [PartialEquivBEq α] in
/-- With as many trees on both sides none is left over. -/
theorem matched_iff (h : es.length = fs.length) : Matched es fs ↔ ∃ gs, gs.Perm fs ∧ SameAll es gs := by
  constructor
  · rintro ⟨gs, free, hfs, hsame⟩
    have hlength := hfs.length_eq
    rw [List.length_append, ← h, hsame.length_eq] at hlength
    obtain rfl := List.length_eq_zero_iff.mp (show free.length = 0 by omega)
    rw [List.append_nil] at hfs
    exact ⟨gs, hfs.symm, hsame⟩
  · rintro ⟨gs, hgs, hsame⟩
    exact ⟨gs, [], by rw [List.append_nil]; exact hgs.symm, hsame⟩

theorem SameAll.replace {x : Expr α} {us vs : List (Expr α)} (h : SameAll es (us ++ x :: vs)) (hx : (x == g) = true) :
    SameAll es (us ++ g :: vs) := by
  induction us generalizing es with
  | nil =>
    obtain ⟨e, es, he, hes, rfl⟩ := List.forall₂_cons_right_iff.mp h
    exact .cons (BEq.trans he hx) hes
  | cons u us ih =>
    obtain ⟨e, es, he, hes, rfl⟩ := List.forall₂_cons_right_iff.mp h
    exact .cons he (ih hes)

/-- Two elements change places. -/
theorem perm_exchange {β : Type} {x y : β} {rest us vs : List β} (h : (x :: rest).Perm (y :: (us ++ x :: vs))) :
    rest.Perm (us ++ y :: vs) := by
  refine List.Perm.cons_inv (a := x) ?_
  calc (x :: rest).Perm (y :: (us ++ x :: vs)) := h
    _ |>.Perm (y :: x :: (us ++ vs)) := List.perm_middle.cons y
    _ |>.Perm (x :: y :: (us ++ vs)) := List.Perm.swap x y _
    _ |>.Perm (x :: (us ++ y :: vs)) := List.perm_middle.symm.cons x

/-- The first tree may be given any one that is the same: if a match gives it another one, the two are
    the same and can change places. -/
theorem matched_cons {x : Expr α} {rest : List (Expr α)} (hx : (x == e) = true) (hfs : fs.Perm (x :: rest)) :
    Matched (e :: es) fs ↔ Matched es rest := by
  constructor
  · rintro ⟨gs, free, hperm, hsame⟩
    obtain ⟨g, gs, hg, hrest, rfl⟩ := List.forall₂_cons_left_iff.mp hsame
    have hperm : (x :: rest).Perm (g :: (gs ++ free)) := hfs.symm.trans hperm
    rcases List.mem_cons.mp (hperm.mem_iff.mp List.mem_cons_self) with rfl | hmem
    · exact ⟨gs, free, hperm.cons_inv, hrest⟩
    rcases List.mem_append.mp hmem with hused | hfree
    · -- The tree is matched with a later one, which can have the first one's instead.
      obtain ⟨us, vs, rfl⟩ := List.append_of_mem hused
      rw [List.append_assoc, List.cons_append] at hperm
      refine ⟨us ++ g :: vs, free, ?_, SameAll.replace hrest (BEq.trans hx hg)⟩
      rw [List.append_assoc, List.cons_append]
      exact perm_exchange hperm
    · obtain ⟨us, vs, rfl⟩ := List.append_of_mem hfree
      rw [← List.append_assoc] at hperm
      refine ⟨gs, us ++ g :: vs, ?_, hrest⟩
      rw [← List.append_assoc]
      exact perm_exchange hperm
  · rintro ⟨gs, free, hperm, hsame⟩
    exact ⟨x :: gs, free, hfs.trans (hperm.cons x), .cons (BEq.symm hx) hsame⟩

theorem not_matched_cons (h : ∀ x ∈ fs, ¬ (x == e) = true) : ¬ Matched (e :: es) fs := by
  rintro ⟨gs, free, hperm, hsame⟩
  obtain ⟨g, gs, hg, -, rfl⟩ := List.forall₂_cons_left_iff.mp hsame
  exact h g (hperm.mem_iff.mpr (by simp)) (BEq.symm hg)

theorem matchAll_iff : matchAll es fs = true ↔ Matched es fs := by
  induction es generalizing fs with
  | nil => exact iff_of_true rfl ⟨[], fs, .refl _, .nil⟩
  | cons e es ih =>
    rw [matchAll, Bool.and_eq_true, List.any_eq_true, ih]
    by_cases h : ∃ x ∈ fs, (x == e) = true
    · obtain ⟨x, hx, hxe⟩ := h
      obtain ⟨y, us, vs, -, hy, hfs, herase⟩ := List.exists_of_eraseP (p := (· == e)) hx hxe
      rw [herase, and_iff_right ⟨x, hx, hxe⟩, matched_cons hy]
      rw [hfs]
      exact List.perm_middle
    · refine iff_of_false (fun hm => h hm.1) (not_matched_cons fun x hx hxe => h ⟨x, hx, hxe⟩)

/-! ## Taking candidates out by swapping -/

/-- Without the element at place `i`, which the last one takes. -/
def swapRemove {β : Type} (i : Nat) (xs : List β) : List β :=
  match xs.getLast? with
  | none => []
  | some last => (xs.set i last).dropLast

theorem swapRemove_perm {β : Type} (us : List β) (x : β) (vs : List β) :
    (swapRemove us.length (us ++ x :: vs)).Perm (us ++ vs) := by
  rcases List.eq_nil_or_concat' vs with rfl | ⟨ws, last, rfl⟩
  · simp [swapRemove]
  · have hremove : swapRemove us.length ((us ++ x :: ws) ++ [last]) = us ++ last :: ws := by
      have hset : ((us ++ x :: ws) ++ [last]).set us.length last = (us ++ last :: ws) ++ [last] := by simp
      simp only [swapRemove, List.getLast?_concat, hset, List.dropLast_concat]
    rw [← List.cons_append, ← List.append_assoc, hremove]
    exact (List.perm_append_singleton last ws).symm.append_left us

omit [PartialEquivBEq α] in
/-- Every tree of the first list has one of its own in the second that is the same. The candidates
    that are left are kept in no particular order. -/
def matchBySwapping : List (Expr α) → List (Expr α) → Bool
  | [], _ => true
  | e :: es, fs =>
    match fs.findIdx? (· == e) with
    | none => false
    | some i => matchBySwapping es (swapRemove i fs)

theorem matchBySwapping_iff : matchBySwapping es fs = true ↔ Matched es fs := by
  induction es generalizing fs with
  | nil => exact iff_of_true rfl ⟨[], fs, .refl _, .nil⟩
  | cons e es ih =>
    rw [matchBySwapping]
    cases h : fs.findIdx? (· == e) with
    | none => exact iff_of_false Bool.false_ne_true (not_matched_cons fun x hx => by simpa using List.findIdx?_eq_none_iff.mp h x hx)
    | some i =>
      obtain ⟨hi, hx, -⟩ := List.findIdx?_eq_some_iff_getElem.mp h
      have hsplit : fs = fs.take i ++ fs[i] :: fs.drop (i + 1) := by simp
      have hperm : fs.Perm (fs[i] :: swapRemove i fs) := by
        have hlength : (fs.take i).length = i := by simp [hi.le]
        have hremove := swapRemove_perm (fs.take i) fs[i] (fs.drop (i + 1))
        rw [hlength, ← hsplit] at hremove
        calc fs.Perm (fs.take i ++ fs[i] :: fs.drop (i + 1)) := .of_eq hsplit
          _ |>.Perm (fs[i] :: (fs.take i ++ fs.drop (i + 1))) := List.perm_middle
          _ |>.Perm (fs[i] :: swapRemove i fs) := hremove.symm.cons _
      exact ih.trans (matched_cons hx hperm).symm

/-! ## Like factors -/

/-- Factors of a single number each are the same if those of one list are those of the other in some order. -/
theorem sameFactors_of_scalars (h : ∀ e ∈ fs ++ gs, e.isScalar = true) :
    sameFactors fs gs = true ↔ ∃ hs, hs.Perm gs ∧ SameAll fs hs := by
  obtain ⟨hfs, hgs⟩ := List.forall_mem_append.mp h
  have hcond : (fs.all isScalar && gs.all isScalar) = true := by
    rw [Bool.and_eq_true, List.all_eq_true, List.all_eq_true]
    exact ⟨hfs, hgs⟩
  rw [sameFactors, if_pos hcond, Bool.and_eq_true, beq_iff_eq, matchAll_iff]
  constructor
  · rintro ⟨hlength, hm⟩
    exact (matched_iff hlength).mp hm
  · rintro ⟨hs, hperm, hsame⟩
    have hlength : fs.length = gs.length := hsame.length_eq.trans hperm.length_eq
    exact ⟨hlength, (matched_iff hlength).mpr ⟨hs, hperm, hsame⟩⟩

omit [PartialEquivBEq α] in
/-- With a factor that is not a single number they are the same one by one. -/
theorem sameFactors_of_not_scalars (h : ∃ e ∈ fs ++ gs, ¬ e.isScalar = true) :
    sameFactors fs gs = true ↔ SameAll fs gs := by
  have hcond : ¬ (fs.all isScalar && gs.all isScalar) = true := by
    rw [Bool.and_eq_true, List.all_eq_true, List.all_eq_true, ← List.forall_mem_append]
    exact fun hall => h.elim fun e he => he.2 (hall e he.1)
  rw [sameFactors, if_neg hcond, Bool.and_eq_true, beq_iff_eq, beqAll_iff_sameAll, and_iff_right_iff_imp]
  exact List.Forall₂.length_eq

omit [PartialEquivBEq α] in
/-- The same factors, with candidates taken out by swapping. -/
def sameFactorsBySwapping (fs gs : List (Expr α)) : Bool :=
  fs.length == gs.length &&
    if fs.all isScalar && gs.all isScalar then matchBySwapping fs gs else beqAll fs gs

theorem sameFactorsBySwapping_eq : sameFactorsBySwapping fs gs = sameFactors fs gs := by
  have hmatch : matchBySwapping fs gs = matchAll fs gs := Bool.eq_iff_iff.mpr (matchBySwapping_iff.trans matchAll_iff.symm)
  rw [sameFactorsBySwapping, sameFactors, hmatch]

/-- No number in the tree is NaN. -/
def NaNFree (e : Expr Float) : Prop := Numbers (fun v => v.isNaN = false) e

theorem NaNFree.beq_self {e : Expr Float} (h : NaNFree e) : (e == e) = true :=
  beq_self_of_numbers ⟨fun v ho => Binary64.beq_self_iff.mpr (h.1 v ho),
    fun m ho => (h.2 m ho).imp Binary64.beq_self_iff.mpr Binary64.beq_self_iff.mpr⟩

theorem nanFree_ofName (name : String) : NaNFree (.ofName name) := by
  have hone : (1 : Float).isNaN = false := by decide
  constructor
  · intro v h
    cases h with
    | child hc => simp [ofName, children] at hc
  · intro m h
    cases h with
    | root => exact ⟨hone, hone⟩
    | child hc => simp [ofName, children] at hc

/-- Factors that are all 1x1 are the same exactly if those of one list, in some order, are those of the
    other tree by tree. Without NaN every tree is the same as itself, so then any order of a list will do.
    With a factor of another shape, or of none, the lists have to be the same as they stand. In what order
    the candidates that are left are kept makes no difference. -/
theorem sameFactors_permutation (fs gs : List (Expr Float)) :
    ((∀ e ∈ fs ++ gs, e.shape = .ok .scalar) → (sameFactors fs gs = true ↔ ∃ hs, hs.Perm gs ∧ SameAll fs hs)) ∧
      ((∀ e ∈ fs, e.shape = .ok .scalar ∧ NaNFree e) → fs.Perm gs → sameFactors fs gs = true) ∧
      ((∃ e ∈ fs ++ gs, e.shape ≠ .ok .scalar) → (sameFactors fs gs = true ↔ SameAll fs gs)) ∧
      sameFactorsBySwapping fs gs = sameFactors fs gs := by
  have hscalars : (∀ e ∈ fs ++ gs, e.shape = .ok .scalar) →
      (sameFactors fs gs = true ↔ ∃ hs, hs.Perm gs ∧ SameAll fs hs) := fun h =>
    sameFactors_of_scalars fun e he => isScalar_iff.mpr (h e he)
  refine ⟨hscalars, fun h hperm => ?_, ?_, sameFactorsBySwapping_eq⟩
  · have hshape : ∀ e ∈ fs ++ gs, e.shape = .ok .scalar :=
      List.forall_mem_append.mpr ⟨fun e he => (h e he).1, fun e he => (h e (hperm.mem_iff.mpr he)).1⟩
    exact (hscalars hshape).mpr ⟨fs, hperm, List.forall₂_same.mpr fun e he => (h e he).2.beq_self⟩
  · rintro ⟨e, he, hne⟩
    exact sameFactors_of_not_scalars ⟨e, he, fun h => hne (isScalar_iff.mp h)⟩

/-- Zeros of both signs count as the same, and the order of names does not count; with a row it does. -/
theorem sameFactors_permutation_commuted :
    let x : Expr Float := .ofName "x"
    let y : Expr Float := .ofName "y"
    let row : Expr Float := .matrix ⟨1, 2, [x, y]⟩
    sameFactors [.const 0.0, x] [x, .const (-0.0)] = true ∧ sameFactors [x, y, x] [y, x, x] = true ∧
      sameFactors [x, row] [row, x] = false := by
  intro x y row
  have hx : NaNFree x := nanFree_ofName "x"
  have hy : NaNFree y := nanFree_ofName "y"
  refine ⟨?_, ?_, ?_⟩
  · refine ((sameFactors_permutation [.const 0.0, x] [x, .const (-0.0)]).1 ?_).mpr ⟨[.const (-0.0), x], .swap .., ?_⟩
    · rintro e he
      fin_cases he <;> rfl
    · exact .cons (beq_iff_node.mpr ⟨.const (by decide), .nil⟩) (.cons hx.beq_self .nil)
  · refine (sameFactors_permutation [x, y, x] [y, x, x]).2.1 ?_ (.swap ..)
    rintro e he
    fin_cases he
    exacts [⟨rfl, hx⟩, ⟨rfl, hy⟩, ⟨rfl, hx⟩]
  · rw [Bool.eq_false_iff, ne_eq, (sameFactors_permutation [x, row] [row, x]).2.2.1 ⟨row, by simp, nofun⟩]
    intro hsame
    have hnode : SameNode (.var (.ofName "x")) (.matrix ⟨1, 2, [x, y]⟩) :=
      (beq_iff_node.mp (List.forall₂_cons.mp hsame).1).1
    cases hnode

end Expr

end SymbolicAlgebra
