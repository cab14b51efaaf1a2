/-
  SymbolicAlgebra.Proofs.Sequence — lists worked on one element after the other by an operation
  that can fail.

  A run over a list that succeeds says something about every element: `mapM_eq_ok` gives the
  outcomes one by one, and `foldlM_induction` carries an invariant along the part that is done. Where
  failures matter too, `Ends` says what a result is like and what the failures can be.
-/

import Mathlib

namespace SymbolicAlgebra

variable {ε β γ σ : Type}

@[simp] theorem ok_bind {b : β} {f : β → Except ε γ} : (Except.ok b >>= f) = f b := rfl

@[simp] theorem error_bind {e : ε} {f : β → Except ε γ} : (Except.error e >>= f) = .error e := rfl

@[simp] theorem bind_eq_ok {x : Except ε β} {f : β → Except ε γ} {c : γ} :
    x >>= f = .ok c ↔ ∃ b, x = .ok b ∧ f b = .ok c := by
  cases x with
  | error e => simp [bind, Except.bind]
  | ok b => simp [bind, Except.bind]

@[simp] theorem pure_eq_ok {b c : β} : (pure b : Except ε β) = .ok c ↔ b = c := by
  simp [pure, Except.pure]

@[simp] theorem throw_ne_ok {e : ε} {c : β} : (throw e : Except ε β) = .ok c ↔ False := by
  simp [throw, throwThe, MonadExceptOf.throw]

theorem ite_throw_eq_ok {p : Prop} [Decidable p] {e : ε} {x : Except ε β} {b : β} :
    (if p then throw e else x) = .ok b ↔ ¬p ∧ x = .ok b := by
  by_cases hp : p
  · simp [hp]
  · simp [hp]

theorem toOption_eq_some {x : Except ε β} {b : β} : x.toOption = some b ↔ x = .ok b := by
  cases x <;> simp [Except.toOption]

theorem mapM_eq_ok {f : β → Except ε γ} {xs : List β} {ys : List γ} :
    xs.mapM f = .ok ys ↔ List.Forall₂ (fun x y => f x = .ok y) xs ys := by
  induction xs generalizing ys with
  | nil => simp [pure, Except.pure, eq_comm]
  | cons x xs ih =>
    rw [List.mapM_cons]
    constructor
    · intro h
      obtain ⟨y, hy, h⟩ := bind_eq_ok.mp h
      obtain ⟨ys', hys, h⟩ := bind_eq_ok.mp h
      cases pure_eq_ok.mp h
      exact .cons hy (ih.mp hys)
    · rintro (_ | ⟨hy, hys⟩)
      exact bind_eq_ok.mpr ⟨_, hy, bind_eq_ok.mpr ⟨_, ih.mpr hys, rfl⟩⟩

theorem foldlM_cons_eq_ok {f : σ → β → Except ε σ} {x : β} {xs : List β} {s r : σ} :
    (x :: xs).foldlM f s = .ok r ↔ ∃ t, f s x = .ok t ∧ xs.foldlM f t = .ok r := by
  rw [List.foldlM_cons, bind_eq_ok]

/-- What holds at the start, and of a longer part after one more step, holds at the end. -/
theorem foldlM_induction {f : σ → β → Except ε σ} {P : List β → σ → Prop} {xs : List β} {s r : σ}
    (h : xs.foldlM f s = .ok r) (start : P [] s)
    (step : ∀ done x s s', x ∈ xs → P done s → f s x = .ok s' → P (done ++ [x]) s') : P xs r := by
  suffices ∀ (done rest : List β) (s : σ), (∀ x ∈ rest, x ∈ xs) → P done s → rest.foldlM f s = .ok r →
      P (done ++ rest) r from this [] xs s (fun _ hx => hx) start h
  intro done rest
  induction rest generalizing done with
  | nil =>
    intro s _ hs hr
    cases pure_eq_ok.mp hr
    simpa using hs
  | cons x rest ih =>
    intro s hsub hs hr
    obtain ⟨s', hx, hr⟩ := foldlM_cons_eq_ok.mp hr
    have hs' := step done x s s' (hsub x List.mem_cons_self) hs hx
    have := ih (done ++ [x]) s' (fun y hy => hsub y (List.mem_cons_of_mem x hy)) hs' hr
    simpa using this

/-- An invariant of the state alone. -/
theorem foldlM_keeps {f : σ → β → Except ε σ} {P : σ → Prop} {xs : List β} {s r : σ}
    (h : xs.foldlM f s = .ok r) (start : P s) (step : ∀ s, P s → ∀ x ∈ xs, ∀ s', f s x = .ok s' → P s') : P r :=
  foldlM_induction (P := fun _ s => P s) h start fun _ x s s' hx hs hf => step s hs x hx s' hf

theorem forall₂_of_mem {R Q : β → γ → Prop} {xs : List β} {ys : List γ} (h : List.Forall₂ R xs ys)
    (hQ : ∀ x ∈ xs, ∀ y, R x y → Q x y) : List.Forall₂ Q xs ys := by
  induction h with
  | nil => exact .nil
  | cons hxy _ ih => exact .cons (hQ _ List.mem_cons_self _ hxy) (ih fun x hx => hQ x (List.mem_cons_of_mem _ hx))

theorem forall_mem_right {R : β → γ → Prop} {Q : γ → Prop} {xs : List β} {ys : List γ} (h : List.Forall₂ R xs ys)
    (hR : ∀ x ∈ xs, ∀ y, R x y → Q y) : ∀ y ∈ ys, Q y := by
  induction h with
  | nil => intro y hy; cases hy
  | cons hxy _ ih =>
    intro y hy
    rcases List.mem_cons.mp hy with rfl | hy
    · exact hR _ List.mem_cons_self _ hxy
    · exact ih (fun x hx => hR x (List.mem_cons_of_mem _ hx)) y hy

theorem exists_mem_right {R : β → γ → Prop} {xs : List β} {ys : List γ} (h : List.Forall₂ R xs ys) {x : β} (hx : x ∈ xs) :
    ∃ y ∈ ys, R x y := by
  induction h with
  | nil => cases hx
  | cons hxy _ ih =>
    rcases List.mem_cons.mp hx with rfl | hx
    · exact ⟨_, List.mem_cons_self, hxy⟩
    · obtain ⟨y, hy, h⟩ := ih hx
      exact ⟨y, List.mem_cons_of_mem _ hy, h⟩

theorem exists_getElem?_right {R : β → γ → Prop} {xs : List β} {ys : List γ} (h : List.Forall₂ R xs ys) {k : Nat} {x : β}
    (hx : xs[k]? = some x) : ∃ y, ys[k]? = some y ∧ R x y := by
  induction h generalizing k with
  | nil => simp at hx
  | cons hxy _ ih =>
    cases k with
    | zero =>
      cases hx
      exact ⟨_, rfl, hxy⟩
    | succ k => exact ih hx

theorem forall₂_singleton_left {R : β → γ → Prop} {x : β} {ys : List γ} (h : List.Forall₂ R [x] ys) :
    ∃ y, R x y ∧ ys = [y] := by
  obtain ⟨y, rest, hy, hrest, rfl⟩ := List.forall₂_cons_left_iff.mp h
  cases hrest
  exact ⟨y, hy, rfl⟩

theorem forall₂_comp {δ : Type} {R : β → γ → Prop} {Q : γ → δ → Prop} {xs : List β} {ys : List γ} {zs : List δ}
    (h : List.Forall₂ R xs ys) (h' : List.Forall₂ Q ys zs) : List.Forall₂ (fun x z => ∃ y, R x y ∧ Q y z) xs zs := by
  induction h generalizing zs with
  | nil =>
    cases h'
    exact .nil
  | cons hxy _ ih =>
    obtain ⟨z, zs, hyz, hzs, rfl⟩ := List.forall₂_cons_left_iff.mp h'
    exact .cons ⟨_, hxy, hyz⟩ (ih hzs)

theorem exists_of_anyM {f : β → Except ε Bool} {xs : List β} (h : xs.anyM f = .ok true) :
    ∃ x ∈ xs, f x = .ok true := by
  induction xs with
  | nil => simp [pure, Except.pure] at h
  | cons x xs ih =>
    unfold List.anyM at h
    obtain ⟨b, hb, h⟩ := bind_eq_ok.mp h
    cases b with
    | true => exact ⟨x, List.mem_cons_self, hb⟩
    | false =>
      obtain ⟨y, hy, hfy⟩ := ih h
      exact ⟨y, List.mem_cons_of_mem x hy, hfy⟩

theorem all_of_allM {f : β → Except ε Bool} {xs : List β} (h : xs.allM f = .ok true) : ∀ x ∈ xs, f x = .ok true := by
  induction xs with
  | nil => intro x hx; cases hx
  | cons x xs ih =>
    unfold List.allM at h
    obtain ⟨b, hb, h⟩ := bind_eq_ok.mp h
    cases b with
    | false => simp at h
    | true => exact List.forall_mem_cons.mpr ⟨hb, ih h⟩

theorem map_eq_map_of_mem {δ : Type} {R : β → γ → Prop} {f : β → δ} {g : γ → δ} {xs : List β} {ys : List γ}
    (h : List.Forall₂ R xs ys) (hR : ∀ x ∈ xs, ∀ y, R x y → g y = f x) : ys.map g = xs.map f := by
  induction h with
  | nil => rfl
  | cons hxy _ ih =>
    rw [List.map_cons, List.map_cons, hR _ List.mem_cons_self _ hxy, ih fun x hx => hR x (List.mem_cons_of_mem _ hx)]

theorem map_eq_map {δ : Type} {R : β → γ → Prop} {f : β → δ} {g : γ → δ} {xs : List β} {ys : List γ}
    (h : List.Forall₂ R xs ys) (hR : ∀ x y, R x y → g y = f x) : ys.map g = xs.map f :=
  map_eq_map_of_mem h fun x _ => hR x

/-- Lists whose elements correspond, names and all, give corresponding elements for a name. -/
theorem find?_of_forall₂ {f : β → String} {g : γ → String} {R : β → γ → Prop} {xs : List β} {ys : List γ}
    (h : List.Forall₂ R xs ys) (hR : ∀ x y, R x y → g y = f x) (name : String) :
    (xs.find? (f · == name) = none ∧ ys.find? (g · == name) = none) ∨
      ∃ x y, xs.find? (f · == name) = some x ∧ ys.find? (g · == name) = some y ∧ R x y := by
  induction h with
  | nil => exact Or.inl ⟨rfl, rfl⟩
  | @cons x y xs ys hxy _ ih =>
    have hname := hR x y hxy
    by_cases hx : f x = name
    · exact Or.inr ⟨x, y, by simp [hx], by simp [hname, hx], hxy⟩
    · simpa [List.find?_cons, hname, hx] using ih

/-! ## Computations that end in known ways -/

/-- The computation has a result as it should be, or fails for one of the reasons that are allowed. -/
def Ends (allowed : ε → Prop) (Q : β → Prop) : Except ε β → Prop
  | .ok b => Q b
  | .error e => allowed e

namespace Ends

variable {allowed : ε → Prop} {Q : β → Prop} {R : γ → Prop}

theorem bind {x : Except ε β} {f : β → Except ε γ} (h : Ends allowed Q x) (hf : ∀ b, Q b → Ends allowed R (f b)) :
    Ends allowed R (x >>= f) := by
  cases x with
  | ok b => exact hf b h
  | error e => exact h

theorem mapM {f : γ → Except ε β} {xs : List γ} (h : ∀ x ∈ xs, Ends allowed Q (f x)) :
    Ends allowed (fun ys => ∀ y ∈ ys, Q y) (xs.mapM f) := by
  induction xs with
  | nil => exact List.forall_mem_nil _
  | cons x xs ih =>
    obtain ⟨hx, hxs⟩ := List.forall_mem_cons.mp h
    rw [List.mapM_cons]
    exact hx.bind fun y hy => (ih hxs).bind fun ys hys => List.forall_mem_cons.mpr ⟨hy, hys⟩

theorem foldlM {I : σ → Prop} {f : σ → γ → Except ε σ} {xs : List γ} {s : σ} (hs : I s)
    (h : ∀ s, I s → ∀ x ∈ xs, Ends allowed I (f s x)) : Ends allowed I (xs.foldlM f s) := by
  induction xs generalizing s with
  | nil => exact hs
  | cons x xs ih =>
    rw [List.foldlM_cons]
    exact (h s hs x List.mem_cons_self).bind fun s hs => ih hs fun s hs x hx => h s hs x (List.mem_cons_of_mem _ hx)

theorem imp {R : β → Prop} {x : Except ε β} (h : Ends allowed Q x) (hR : ∀ b, Q b → R b) : Ends allowed R x := by
  cases x with
  | ok b => exact hR b h
  | error e => exact h

theorem allow {allowed' : ε → Prop} {x : Except ε β} (h : Ends allowed Q x) (ha : ∀ e, allowed e → allowed' e) :
    Ends allowed' Q x := by
  cases x with
  | ok b => exact h
  | error e => exact ha e h

/-- What is known of the result may say which computation it comes from. -/
theorem attach {x : Except ε β} (h : Ends allowed Q x) : Ends allowed (fun b => x = .ok b ∧ Q b) x := by
  cases x with
  | ok b => exact ⟨rfl, h⟩
  | error e => exact h

end Ends

/-- The computation succeeds. -/
abbrev Succeeds (Q : β → Prop) : Except ε β → Prop := Ends (fun _ => False) Q

theorem Succeeds.eq_ok {Q : β → Prop} {x : Except ε β} (h : Succeeds Q x) : ∃ b, x = .ok b ∧ Q b := by
  cases x with
  | ok b => exact ⟨b, rfl, h⟩
  | error e => exact h.elim

end SymbolicAlgebra
