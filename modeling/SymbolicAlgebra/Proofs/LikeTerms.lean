/-
  SymbolicAlgebra.Proofs.LikeTerms — like terms never stay apart.

  A sum groups its terms by the names in them: a power of a name that is not there yet is put into one
  node with the first term of that name, so powers of a name pile up in nested sums while others of them
  stay beside these. What no order of additions and cancellations breaks is `Tidy`: the terms of a sum are
  tidy and made of one name each (`Uniform`), no two of them share a power (`Apart`), and of the terms of
  one name only the first may be a sum.

  A new number or monomial then finds its like wherever it is: if a term of its name makes one node with
  it, it was in there; if not, it was not, and the search goes on (`Collects.like_of_node`,
  `Collects.unlike_of_sum`). So one addition adds one amount and leaves all others as they are
  (`Tidy.add_proper`), and a sum of numbers and monomials holds the totals, in whatever order they come
  (`sumOf_collects`).
-/

import SymbolicAlgebra.Proofs.Depth
import SymbolicAlgebra.Proofs.FreeNames
import SymbolicAlgebra.Proofs.Rational
import SymbolicAlgebra.Proofs.Totality

namespace SymbolicAlgebra.Expr

/-! ## What a sum collects -/

section
variable {α : Type}

mutual

/-- The terms of a sum, and of the sums among them. -/
def summands : Expr α → List (Expr α)
  | .sum ts => summandsAll ts
  | e => [e]

/-- The summands of all the expressions, one after the other. -/
def summandsAll : List (Expr α) → List (Expr α)
  | [] => []
  | t :: ts => summands t ++ summandsAll ts

end

theorem mem_summandsAll {u : Expr α} {ts : List (Expr α)} : u ∈ summandsAll ts ↔ ∃ t ∈ ts, u ∈ t.summands := by
  induction ts with
  | nil => simp [summandsAll]
  | cons t ts ih => simp [summandsAll, ih]

theorem summandsAll_append (ts us : List (Expr α)) : summandsAll (ts ++ us) = summandsAll ts ++ summandsAll us := by
  induction ts with
  | nil => rfl
  | cons t ts ih => rw [List.cons_append, summandsAll, summandsAll, ih, List.append_assoc]

theorem summands_of_kind {e : Expr α} (h : e.kind ≠ .sum) : e.summands = [e] := by
  cases e with
  | sum ts => exact absurd rfl h
  | _ => simp [summands]

end

/-- What makes two terms like: nothing for numbers, and for monomials the name and the exponent. -/
def key : Expr ℚ → Option (String × ℚ)
  | .var m => some (m.name, m.exponent)
  | _ => none

/-- How much of its power a number or a monomial is. -/
def amount : Expr ℚ → ℚ
  | .const v => v
  | .var m => m.quantity
  | _ => 0

/-- So much of a power. -/
def ofAmount (q : ℚ) : Option (String × ℚ) → Expr ℚ
  | none => .const q
  | some (name, exponent) => .var ⟨name, q, exponent⟩

/-- The amounts of a power in a list of numbers and monomials, added up. -/
def total (ts : List (Expr ℚ)) (k : Option (String × ℚ)) : ℚ := (ts.map fun t => if t.key = k then t.amount else 0).sum

/-- The powers that do not cancel, each once. -/
def powers (ts : List (Expr ℚ)) : List (Option (String × ℚ)) := ((ts.map key).dedup).filter (total ts · ≠ 0)

/-- One term for every power that does not cancel, and the number `0` if all of them do. -/
def collected (ts : List (Expr ℚ)) : List (Expr ℚ) :=
  if powers ts = [] then [.const 0] else (powers ts).map fun k => ofAmount (total ts k) k

@[simp] theorem total_nil (k : Option (String × ℚ)) : total [] k = 0 := rfl

@[simp] theorem total_append (ts us : List (Expr ℚ)) (k : Option (String × ℚ)) :
    total (ts ++ us) k = total ts k + total us k := by
  simp [total]

theorem total_cons (t : Expr ℚ) (ts : List (Expr ℚ)) (k : Option (String × ℚ)) :
    total (t :: ts) k = total [t] k + total ts k := total_append [t] ts k

theorem total_single (t : Expr ℚ) (k : Option (String × ℚ)) : total [t] k = if t.key = k then t.amount else 0 := by
  simp [total]

@[simp] theorem total_zero (k : Option (String × ℚ)) : total [.const 0] k = 0 := by
  simp [total, amount]

theorem total_eq_zero {ts : List (Expr ℚ)} {k : Option (String × ℚ)} (h : k ∉ ts.map key) : total ts k = 0 := by
  induction ts with
  | nil => rfl
  | cons t ts ih =>
    rw [List.map_cons, List.mem_cons, not_or] at h
    rw [total_cons, total_single, if_neg (Ne.symm h.1), ih h.2, zero_add]

/-- Of different powers each one is there in its own amount. -/
theorem total_eq_amount {ts : List (Expr ℚ)} (hd : (ts.map key).Nodup) {t : Expr ℚ} (ht : t ∈ ts) :
    total ts t.key = t.amount := by
  induction ts with
  | nil => cases ht
  | cons x xs ih =>
    rw [List.map_cons, List.nodup_cons] at hd
    rw [total_cons, total_single]
    rcases List.mem_cons.mp ht with rfl | ht
    · rw [if_pos rfl, total_eq_zero hd.1, add_zero]
    · have hne : x.key ≠ t.key := fun e => hd.1 (e ▸ List.mem_map_of_mem ht)
      rw [if_neg hne, zero_add, ih hd.2 ht]

/-! ## Proper terms -/

/-- A number that is not zero, or a monomial that is not zero and depends on its name. -/
inductive Proper : Expr ℚ → Prop
  | const {v : ℚ} : v ≠ 0 → Proper (.const v)
  | var {m : Monomial ℚ} : m.quantity ≠ 0 → m.exponent ≠ 0 → Proper (.var m)

namespace Proper

variable {t u : Expr ℚ}

theorem kind (h : Proper t) : t.kind ≠ .sum := by
  cases h <;> simp [Expr.kind]

theorem amount_ne (h : Proper t) : t.amount ≠ 0 := by
  cases h with
  | const h => exact h
  | var h _ => exact h

theorem isZero (h : Proper t) : t.isZero = false := by
  cases h with
  | const h => exact Rational.nearZero_eq_false_iff.mpr h
  | var h _ => exact Rational.nearZero_eq_false_iff.mpr h

theorem gridless (h : Proper t) : Gridless t := by
  cases h with
  | const _ => exact .const _
  | var _ _ => exact .var trivial

theorem ofAmount_eq (h : Proper t) : ofAmount t.amount t.key = t := by
  cases h <;> rfl

/-- The names that occur in a term tell no more than its power does. -/
theorem freeNames_eq (ht : Proper t) (hu : Proper u) (h : t.key = u.key) : t.freeNames = u.freeNames := by
  cases ht with
  | const _ =>
    cases hu with
    | const _ => rfl
    | var _ _ => cases h
  | var _ _ =>
    cases hu with
    | const _ => cases h
    | var _ _ =>
      have hname := congrArg Prod.fst (Option.some.inj h)
      simpa [freeNames] using hname

end Proper

/-! ## Tidy sums -/

/-- The powers in a tree. -/
def keys (e : Expr ℚ) : List (Option (String × ℚ)) := e.summands.map key

/-- All summands have the names of the whole. -/
def Uniform (e : Expr ℚ) : Prop := ∀ u ∈ e.summands, u.freeNames = e.freeNames

/-- The first term may stand before the second one in a sum: they have no power in common, and if the
    second one is a sum, it has other names. -/
structure Apart (x y : Expr ℚ) : Prop where
  names : y.kind = .sum → x.freeNames ≠ y.freeNames
  keys : ∀ k ∈ x.keys, k ∉ y.keys

/-- A sum in which like terms are together. -/
inductive Tidy : Expr ℚ → Prop
  | leaf {e : Expr ℚ} : Proper e → Tidy e
  | sum {ts : List (Expr ℚ)} : 2 ≤ ts.length → (∀ t ∈ ts, Tidy t) → (∀ t ∈ ts, Uniform t) → ts.Pairwise Apart →
      Tidy (.sum ts)

/-- Terms that make a tidy sum, if there are at least two. -/
structure TidyTerms (ts : List (Expr ℚ)) : Prop where
  tidy : ∀ t ∈ ts, Tidy t
  uniform : ∀ t ∈ ts, Uniform t
  apart : ts.Pairwise Apart

theorem keys_sum (ts : List (Expr ℚ)) : keys (.sum ts) = ts.flatMap keys := by
  rw [keys, summands]
  induction ts with
  | nil => rfl
  | cons t ts ih =>
    rw [summandsAll, List.map_append, List.flatMap_cons, ih]
    rfl

theorem keys_of_kind {e : Expr ℚ} (h : e.kind ≠ .sum) : e.keys = [e.key] := by
  rw [keys, summands_of_kind h]
  rfl

theorem Proper.uniform {t : Expr ℚ} (h : Proper t) : Uniform t := by
  rw [Uniform, summands_of_kind h.kind]
  exact List.forall_mem_singleton.mpr rfl

/-- A proper term may stand second wherever its power is new. -/
theorem Proper.apart {x t : Expr ℚ} (ht : Proper t) (hk : t.key ∉ x.keys) : Apart x t := by
  refine ⟨fun hs => absurd hs ht.kind, fun k hkx hkt => hk ?_⟩
  rw [keys_of_kind ht.kind, List.mem_singleton] at hkt
  rwa [hkt] at hkx

theorem mem_keys {e : Expr ℚ} {k : Option (String × ℚ)} : k ∈ e.keys ↔ ∃ u ∈ e.summands, u.key = k := List.mem_map

theorem tidy_sum_iff {ts : List (Expr ℚ)} : Tidy (.sum ts) ↔ 2 ≤ ts.length ∧ TidyTerms ts := by
  constructor
  · intro h
    cases h with
    | leaf h => exact absurd rfl h.kind
    | sum hlen ht hu ha => exact ⟨hlen, ht, hu, ha⟩
  · intro h
    exact .sum h.1 h.2.tidy h.2.uniform h.2.apart

/-- The powers with a total that is not zero are those that are there. -/
theorem mem_keys_iff {ts : List (Expr ℚ)} (hp : ∀ t ∈ ts, Proper t) (hd : (ts.map key).Nodup) {k : Option (String × ℚ)} :
    k ∈ ts.map key ↔ total ts k ≠ 0 := by
  constructor
  · intro hk
    obtain ⟨t, ht, rfl⟩ := List.mem_map.mp hk
    rw [total_eq_amount hd ht]
    exact (hp t ht).amount_ne
  · intro h
    by_contra hk
    exact h (total_eq_zero hk)

namespace Tidy

variable {e : Expr ℚ} {k : Option (String × ℚ)}

theorem of_kind (h : Tidy e) (hk : e.kind ≠ .sum) : Proper e := by
  cases h with
  | leaf h => exact h
  | sum => exact absurd rfl hk

theorem proper (h : Tidy e) : ∀ u ∈ e.summands, Proper u := by
  induction h with
  | leaf h =>
    rw [summands_of_kind h.kind]
    exact List.forall_mem_singleton.mpr h
  | sum _ _ _ _ ih =>
    intro u hu
    rw [summands] at hu
    obtain ⟨t, ht, hu⟩ := mem_summandsAll.mp hu
    exact ih t ht u hu

theorem nodup (h : Tidy e) : e.keys.Nodup := by
  induction h with
  | leaf h =>
    rw [keys_of_kind h.kind]
    exact List.nodup_singleton _
  | sum _ _ _ ha ih =>
    rw [keys_sum]
    exact List.nodup_flatMap.mpr ⟨ih, ha.imp fun hxy => hxy.keys⟩

theorem mem_keys_iff (h : Tidy e) : k ∈ e.keys ↔ total e.summands k ≠ 0 := Expr.mem_keys_iff h.proper h.nodup

theorem exists_key (h : Tidy e) : ∃ k, k ∈ e.keys := by
  induction h with
  | leaf h => exact ⟨_, by rw [keys_of_kind h.kind]; exact List.mem_singleton.mpr rfl⟩
  | @sum ts hlen _ _ _ ih =>
    obtain ⟨t, ht⟩ := List.exists_mem_of_length_pos (Nat.lt_of_lt_of_le Nat.zero_lt_two hlen)
    obtain ⟨k, hk⟩ := ih t ht
    exact ⟨k, by rw [keys_sum]; exact List.mem_flatMap.mpr ⟨t, ht, hk⟩⟩

/-- A tidy sum has a power besides any given one. -/
theorem exists_other_key {ts : List (Expr ℚ)} (h : Tidy (.sum ts)) (k : Option (String × ℚ)) :
    ∃ k' ∈ keys (.sum ts), k' ≠ k := by
  obtain ⟨hlen, hterms⟩ := tidy_sum_iff.mp h
  match ts with
  | x :: y :: zs =>
    obtain ⟨kx, hkx⟩ := (hterms.tidy x (by simp)).exists_key
    obtain ⟨ky, hky⟩ := (hterms.tidy y (by simp)).exists_key
    have hxy := (List.pairwise_cons.mp hterms.apart).1 y List.mem_cons_self
    by_cases hk : kx = k
    · refine ⟨ky, ?_, fun e => hxy.keys kx hkx ?_⟩
      · rw [keys_sum]
        exact List.mem_flatMap.mpr ⟨y, by simp, hky⟩
      · rwa [hk, ← e]
    · refine ⟨kx, ?_, hk⟩
      rw [keys_sum]
      exact List.mem_flatMap.mpr ⟨x, by simp, hkx⟩

theorem gridless (h : Tidy e) : Gridless e := by
  induction h with
  | leaf h => exact h.gridless
  | sum _ _ _ _ ih => exact .sum ih

end Tidy

/-! ## One addition -/

/-- The number `0` or a tidy sum, in which every power has its total over the terms. -/
structure Collects (ts : List (Expr ℚ)) (e : Expr ℚ) : Prop where
  tidy : e = .const 0 ∨ Tidy e
  total_eq (k : Option (String × ℚ)) : total e.summands k = total ts k

section
variable {x t m : Expr ℚ} {k : Option (String × ℚ)}

/-- There is no power in the sum that is not in an operand. -/
theorem Collects.mem_keys (h : Collects (x.summands ++ [t]) m) (hm : Tidy m) (hk : k ∈ m.keys) :
    k ∈ x.keys ∨ k = t.key := by
  rw [hm.mem_keys_iff, h.total_eq, total_append, total_single] at hk
  by_contra hno
  rw [not_or] at hno
  have hx0 : total x.summands k = 0 := total_eq_zero hno.1
  rw [hx0, if_neg (Ne.symm hno.2)] at hk
  exact hk (add_zero 0)

/-- What makes one node with a term is like a part of it. -/
theorem Collects.like_of_node (h : Collects (x.summands ++ [t]) m) (hx : Tidy x) (ht : Proper t) (hm : m.kind ≠ .sum) :
    t.key ∈ x.keys := by
  by_contra hno
  have htotal : ∀ k, total m.summands k = total x.summands k + if t.key = k then t.amount else 0 := by
    intro k
    rw [h.total_eq, total_append, total_single]
  have hself : total m.summands t.key ≠ 0 := by
    rw [htotal, total_eq_zero hno, if_pos rfl, zero_add]
    exact ht.amount_ne
  rcases h.tidy with rfl | hmt
  · exact hself (by simp [summands])
  -- Both `t` and a part of `x` would be left, in a single number or monomial.
  · obtain ⟨k, hk⟩ := hx.exists_key
    have hne : t.key ≠ k := fun e => hno (e ▸ hk)
    have hother : total m.summands k ≠ 0 := by
      rw [htotal, if_neg hne, add_zero]
      exact hx.mem_keys_iff.mp hk
    have hkeys := keys_of_kind hm
    have h1 := hmt.mem_keys_iff.mpr hself
    have h2 := hmt.mem_keys_iff.mpr hother
    rw [hkeys, List.mem_singleton] at h1 h2
    exact hne (h1.trans h2.symm)

/-- A single term that only makes a sum with another one is not like it. -/
theorem Collects.unlike_of_sum (h : Collects (x.summands ++ [t]) m) (hx : Proper x) (hm : m.kind = .sum) :
    t.key ∉ x.keys := by
  intro hmem
  rw [keys_of_kind hx.kind, List.mem_singleton] at hmem
  rcases h.tidy with rfl | hmt
  · cases hm
  · cases m with
    | sum ms =>
      obtain ⟨k, hk, hne⟩ := hmt.exists_other_key x.key
      rcases h.mem_keys hmt hk with hk | hk
      · rw [keys_of_kind hx.kind, List.mem_singleton] at hk
        exact hne hk
      · exact hne (hk.trans hmem)
    | _ => cases hm

theorem freeNamesAll_of_forall {ns : List String} (hns : ns.length ≤ 1) {ts : List (Expr ℚ)} (hne : ts ≠ [])
    (h : ∀ t ∈ ts, t.freeNames = ns) : freeNamesAll ts = ns := by
  have twice : mergeNames ns ns = ns ∧ mergeNames ns [] = ns := by
    match ns with
    | [] => exact ⟨rfl, rfl⟩
    | [n] => simp [mergeNames, insertName]
  induction ts with
  | nil => exact absurd rfl hne
  | cons t ts ih =>
    obtain ⟨ht, hts⟩ := List.forall_mem_cons.mp h
    rw [freeNamesAll, ht]
    cases ts with
    | nil => exact twice.2
    | cons u us => rw [ih (by simp) hts, twice.1]

/-- Names that all summands have are the names of the whole. -/
theorem Tidy.freeNames_eq (h : Tidy x) {ns : List String} (hns : ns.length ≤ 1)
    (hall : ∀ u ∈ x.summands, u.freeNames = ns) : x.freeNames = ns := by
  induction h with
  | leaf h =>
    rw [summands_of_kind h.kind] at hall
    exact hall _ (List.mem_singleton.mpr rfl)
  | @sum ts hlen _ _ _ ih =>
    rw [summands] at hall
    rw [freeNames]
    refine freeNamesAll_of_forall hns (fun e => by simp [e] at hlen) fun t ht => ih t ht fun u hu => ?_
    exact hall u (mem_summandsAll.mpr ⟨t, ht, hu⟩)

/-- A term with a power of a uniform tree has the names of the tree. -/
theorem Tidy.freeNames_of_mem_keys (hx : Tidy x) (hu : Uniform x) (ht : Proper t) (hk : t.key ∈ x.keys) :
    x.freeNames = t.freeNames := by
  obtain ⟨u, hmem, hkey⟩ := Expr.mem_keys.mp hk
  rw [← hu u hmem]
  exact (hx.proper u hmem).freeNames_eq ht hkey

/-- A sum of terms with the same names has these names throughout. -/
theorem Collects.uniform (h : Collects (x.summands ++ [t]) m) (hm : Tidy m) (hx : Tidy x) (hu : Uniform x) (ht : Proper t)
    (hn : x.freeNames = t.freeNames) : m.freeNames = x.freeNames ∧ Uniform m := by
  have hall : ∀ u ∈ m.summands, u.freeNames = x.freeNames := by
    intro u hmem
    have hp := hm.proper u hmem
    rcases h.mem_keys hm (Expr.mem_keys.mpr ⟨u, hmem, rfl⟩) with hk | hk
    · exact (hx.freeNames_of_mem_keys hu hp hk).symm
    · rw [hp.freeNames_eq ht hk, hn]
  have hlen : x.freeNames.length ≤ 1 := by
    rw [hn]
    cases ht <;> simp [freeNames]
  have hname := hm.freeNames_eq hlen hall
  exact ⟨hname, fun u hmem => (hall u hmem).trans hname.symm⟩

end

/-! ## A term among others -/

namespace TidyTerms

variable {ts : List (Expr ℚ)} {k : Option (String × ℚ)}

theorem mem_keys_iff (h : TidyTerms ts) : k ∈ ts.flatMap keys ↔ total (summandsAll ts) k ≠ 0 := by
  have hproper : ∀ u ∈ summandsAll ts, Proper u := by
    intro u hu
    obtain ⟨t, ht, hu⟩ := mem_summandsAll.mp hu
    exact (h.tidy t ht).proper u hu
  have hkeys : ts.flatMap keys = (summandsAll ts).map key := by
    rw [← keys_sum, keys, summands]
  have hd : (ts.flatMap keys).Nodup := List.nodup_flatMap.mpr ⟨fun t ht => (h.tidy t ht).nodup, h.apart.imp fun h => h.keys⟩
  rw [hkeys] at hd ⊢
  exact Expr.mem_keys_iff hproper hd

theorem cons_iff {x : Expr ℚ} :
    TidyTerms (x :: ts) ↔ Tidy x ∧ Uniform x ∧ (∀ y ∈ ts, Apart x y) ∧ TidyTerms ts := by
  constructor
  · intro h
    obtain ⟨hx, hts⟩ := List.forall_mem_cons.mp h.tidy
    obtain ⟨hux, huts⟩ := List.forall_mem_cons.mp h.uniform
    obtain ⟨hax, hats⟩ := List.pairwise_cons.mp h.apart
    exact ⟨hx, hux, hax, hts, huts, hats⟩
  · intro ⟨hx, hux, hax, h⟩
    exact ⟨List.forall_mem_cons.mpr ⟨hx, h.tidy⟩, List.forall_mem_cons.mpr ⟨hux, h.uniform⟩,
      List.pairwise_cons.mpr ⟨hax, h.apart⟩⟩

/-- A proper term of a new power may stand last. -/
theorem concat {t : Expr ℚ} (h : TidyTerms ts) (ht : Proper t) (hk : t.key ∉ ts.flatMap keys) : TidyTerms (ts ++ [t]) where
  tidy := List.forall_mem_append.mpr ⟨h.tidy, List.forall_mem_singleton.mpr (.leaf ht)⟩
  uniform := List.forall_mem_append.mpr ⟨h.uniform, List.forall_mem_singleton.mpr ht.uniform⟩
  apart := by
    refine List.pairwise_append.mpr ⟨h.apart, List.pairwise_singleton _ _, fun x hx => ?_⟩
    exact List.forall_mem_singleton.mpr (ht.apart fun hkx => hk (List.mem_flatMap.mpr ⟨x, hx, hkx⟩))

end TidyTerms

/-- The terms `us` are tidy and what the terms `ts` come to with `t` among them. -/
structure Joined (t : Expr ℚ) (ts us : List (Expr ℚ)) : Prop where
  tidy : TidyTerms us
  total_eq (k : Option (String × ℚ)) : total (summandsAll us) k = total (summandsAll ts ++ [t]) k
  origin : ∀ u ∈ us, u ∈ ts ∨ u.freeNames = t.freeNames

namespace Joined

variable {t x m : Expr ℚ} {xs us : List (Expr ℚ)}

theorem mem_keys (h : Joined t xs us) {u : Expr ℚ} (hu : u ∈ us) {k : Option (String × ℚ)} (hk : k ∈ u.keys) :
    k = t.key ∨ k ∈ xs.flatMap keys := by
  have hne := h.tidy.mem_keys_iff.mp (List.mem_flatMap.mpr ⟨u, hu, hk⟩)
  rw [h.total_eq, total_append, total_single] at hne
  by_contra hno
  rw [not_or] at hno
  have hxs : total (summandsAll xs) k = 0 := by
    refine total_eq_zero fun hmem => hno.2 ?_
    rwa [← keys_sum, keys, summands]
  rw [hxs, if_neg (Ne.symm hno.1)] at hne
  exact hne (add_zero 0)

/-- One more term in front of those that a term has joined, if it is apart from the term. -/
theorem cons (h : Joined t xs us) (hx : TidyTerms (x :: xs)) (hk : t.key ∉ x.keys)
    (hn : ∀ u ∈ us, u.kind = .sum → x.freeNames ≠ u.freeNames) : Joined t (x :: xs) (x :: us) := by
  obtain ⟨htx, hux, hax, _⟩ := TidyTerms.cons_iff.mp hx
  refine ⟨TidyTerms.cons_iff.mpr ⟨htx, hux, fun u hu => ⟨hn u hu, fun k hkx hku => ?_⟩, h.tidy⟩, fun k => ?_, fun u hu => ?_⟩
  · rcases h.mem_keys hu hku with rfl | hmem
    · exact hk hkx
    · obtain ⟨y, hy, hky⟩ := List.mem_flatMap.mp hmem
      exact (hax y hy).keys k hkx hky
  · simp only [summandsAll, List.append_assoc]
    rw [total_append, h.total_eq, ← total_append]
  · rcases List.mem_cons.mp hu with rfl | hu
    · exact Or.inl List.mem_cons_self
    · exact (h.origin u hu).imp (List.mem_cons_of_mem x) id

/-- A term that is replaced by what it makes with `t`. -/
theorem replace (hx : TidyTerms (x :: xs)) (ht : Proper t) (hn : x.freeNames = t.freeNames)
    (hc : Collects (x.summands ++ [t]) m) (hm : Tidy m) (hk : t.key ∉ xs.flatMap keys) : Joined t (x :: xs) (m :: xs) := by
  obtain ⟨htx, hux, hax, hxs⟩ := TidyTerms.cons_iff.mp hx
  obtain ⟨hname, hum⟩ := hc.uniform hm htx hux ht hn
  refine ⟨TidyTerms.cons_iff.mpr ⟨hm, hum, fun y hy => ⟨fun hs => ?_, fun k hkm hky => ?_⟩, hxs⟩, fun k => ?_, fun u hu => ?_⟩
  · rw [hname]
    exact (hax y hy).names hs
  · rcases hc.mem_keys hm hkm with hkx | rfl
    · exact (hax y hy).keys k hkx hky
    · exact hk (List.mem_flatMap.mpr ⟨y, hy, hky⟩)
  · simp only [summandsAll, total_append, hc.total_eq]
    ring
  · rcases List.mem_cons.mp hu with rfl | hu
    · exact Or.inr (hname.trans hn)
    · exact Or.inl (List.mem_cons_of_mem x hu)

/-- A term that `t` cancels. -/
theorem drop (hx : TidyTerms (x :: xs)) (hc : Collects (x.summands ++ [t]) (.const 0)) : Joined t (x :: xs) xs := by
  refine ⟨(TidyTerms.cons_iff.mp hx).2.2.2, fun k => ?_, fun u hu => Or.inl (List.mem_cons_of_mem x hu)⟩
  have hzero : total (x.summands ++ [t]) k = 0 := by
    rw [← hc.total_eq]
    simp [summands]
  rw [total_append] at hzero
  simp only [summandsAll, total_append]
  linarith

end Joined

/-- What becomes of tidy terms that a proper term is offered to. -/
def Took (t : Expr ℚ) (ts : List (Expr ℚ)) : Calls.Offer ℚ → Prop
  | .merged us => Joined t ts us ∧ (∀ u ∈ us, u.kind = .sum → u ∈ ts) ∧ t.key ∈ ts.flatMap keys
  | .grouped us => Joined t ts us ∧
      ((∀ x ∈ ts, x.freeNames = t.freeNames → x.kind ≠ .sum) → t.key ∉ ts.flatMap keys)
  | .apart => ∀ x ∈ ts, x.freeNames ≠ t.freeNames

section
variable {t : Expr ℚ} {ts : List (Expr ℚ)}

theorem not_mem_keys_of_apart (hts : TidyTerms ts) (ht : Proper t) (h : ∀ x ∈ ts, x.freeNames ≠ t.freeNames) :
    t.key ∉ ts.flatMap keys := by
  intro hk
  obtain ⟨x, hx, hk⟩ := List.mem_flatMap.mp hk
  exact h x hx ((hts.tidy x hx).freeNames_of_mem_keys (hts.uniform x hx) ht hk)

/-- It joins a term further on, if it is like one there. -/
theorem took_further {x : Expr ℚ} {xs us : List (Expr ℚ)} (hx : TidyTerms (x :: xs)) (h : Took t xs (.merged us)) :
    Took t (x :: xs) (.merged (x :: us)) := by
  obtain ⟨_, _, hax, _⟩ := TidyTerms.cons_iff.mp hx
  obtain ⟨hjoin, hsums, hmem⟩ := h
  refine ⟨hjoin.cons hx (fun hk => ?_) (fun u hu hs => (hax u (hsums u hu hs)).names hs), fun u hu hs => ?_, ?_⟩
  · obtain ⟨y, hy, hky⟩ := List.mem_flatMap.mp hmem
    exact (hax y hy).keys _ hk hky
  · rcases List.mem_cons.mp hu with rfl | hu
    · exact List.mem_cons_self
    · exact List.mem_cons_of_mem x (hsums u hu hs)
  · rw [List.flatMap_cons]
    exact List.mem_append_right _ hmem

/-- A term with other names lets it pass. -/
theorem took_past {x : Expr ℚ} {xs us : List (Expr ℚ)} (hx : TidyTerms (x :: xs)) (ht : Proper t)
    (hn : x.freeNames ≠ t.freeNames) (h : Took t xs (.grouped us)) : Took t (x :: xs) (.grouped (x :: us)) := by
  obtain ⟨htx, hux, hax, _⟩ := TidyTerms.cons_iff.mp hx
  have hk : t.key ∉ x.keys := fun hk => hn (htx.freeNames_of_mem_keys hux ht hk)
  refine ⟨h.1.cons hx hk fun u hu hs => ?_, fun hleaf hmem => ?_⟩
  · rcases h.1.origin u hu with hu | hu
    · exact (hax u hu).names hs
    · exact fun e => hn (e.trans hu)
  · rw [List.flatMap_cons, List.mem_append] at hmem
    exact hmem.elim hk (h.2 (List.forall_mem_cons.mp hleaf).2)

section
variable {x m : Expr ℚ} {xs : List (Expr ℚ)} (hx : TidyTerms (x :: xs)) (ht : Proper t) (hn : x.freeNames = t.freeNames)
  (hc : Collects (x.summands ++ [t]) m)
include hx ht hn hc

/-- It makes one node with a term, and takes its place or cancels it. -/
theorem took_node (hk : m.kind ≠ .sum) : Took t (x :: xs) (.merged (if m.isZero then xs else m :: xs)) := by
  obtain ⟨htx, _, hax, _⟩ := TidyTerms.cons_iff.mp hx
  have hlike := hc.like_of_node htx ht hk
  have hmem : t.key ∈ (x :: xs).flatMap keys := List.mem_flatMap.mpr ⟨x, List.mem_cons_self, hlike⟩
  have hrest : t.key ∉ xs.flatMap keys := by
    intro hk
    obtain ⟨y, hy, hky⟩ := List.mem_flatMap.mp hk
    exact (hax y hy).keys _ hlike hky
  rcases hc.tidy with rfl | hm
  · exact ⟨.drop hx hc, fun u hu _ => List.mem_cons_of_mem x hu, hmem⟩
  · rw [if_neg (by simp [(hm.of_kind hk).isZero])]
    refine ⟨.replace hx ht hn hc hm hrest, fun u hu hs => ?_, hmem⟩
    rcases List.mem_cons.mp hu with rfl | hu
    · exact absurd hs hk
    · exact List.mem_cons_of_mem x hu

/-- It makes a sum with the first term of its names, and is not like one further on. -/
theorem took_sum (hk : m.kind = .sum) {o : Calls.Offer ℚ} (ho : Took t xs o) (hno : ∀ us, o ≠ .merged us) :
    Took t (x :: xs) (.grouped (m :: xs)) := by
  obtain ⟨htx, _, hax, hxs⟩ := TidyTerms.cons_iff.mp hx
  have hrest : t.key ∉ xs.flatMap keys := by
    cases o with
    | merged us => exact absurd rfl (hno us)
    | grouped us => exact ho.2 fun y hy hyt hs => (hax y hy).names hs (hn.trans hyt.symm)
    | apart => exact not_mem_keys_of_apart hxs ht ho
  have hm : Tidy m := hc.tidy.resolve_left fun e => by simp [e, kind] at hk
  refine ⟨.replace hx ht hn hc hm hrest, fun hleaf hmem => ?_⟩
  rw [List.flatMap_cons, List.mem_append] at hmem
  exact hmem.elim (hc.unlike_of_sum (htx.of_kind (hleaf x List.mem_cons_self hn)) hk) hrest

end

theorem offer_tidy (hts : TidyTerms ts) (ht : Proper t)
    (hadd : ∀ x ∈ ts, ∃ m, x.add t = .ok m ∧ Collects (x.summands ++ [t]) m) :
    ∃ o, Calls.unbounded.offer t t.freeNames ts = .ok o ∧ Took t ts o := by
  induction ts with
  | nil => exact ⟨.apart, rfl, List.forall_mem_nil _⟩
  | cons x xs ih =>
    obtain ⟨hx, hxs⟩ := List.forall_mem_cons.mp hadd
    obtain ⟨o, ho, htook⟩ := ih (TidyTerms.cons_iff.mp hts).2.2.2 hxs
    unfold Calls.offer
    by_cases hn : x.freeNames = t.freeNames
    · obtain ⟨m, hm, hc⟩ := hx
      rw [if_neg (by simp [hn]), Calls.unbounded_add hm, ok_bind]
      -- One node takes the new term at once; a sum is kept only if none of the terms behind takes it.
      have node : m.kind ≠ .sum → ∃ o, (do
          if ← Calls.unbounded.isZero m then return .merged xs else return .merged (m :: xs)) = Except.ok (ε := Stop) o ∧
            Took t (x :: xs) o := by
        intro hk
        refine ⟨_, ?_, took_node hts ht hn hc hk⟩
        rw [Calls.unbounded_isZero, ok_bind]
        split <;> rfl
      cases m with
      | sum ms =>
        dsimp only
        rw [ho, ok_bind]
        cases o with
        | merged us => exact ⟨_, rfl, took_further hts htook⟩
        | grouped us => exact ⟨_, rfl, took_sum hts ht hn hc rfl htook (by simp)⟩
        | apart => exact ⟨_, rfl, took_sum hts ht hn hc rfl htook (by simp)⟩
      | _ => exact node (by simp [kind])
    · rw [if_pos (by simp [hn]), ho, ok_bind]
      cases o with
      | merged us => exact ⟨_, rfl, took_further hts htook⟩
      | grouped us => exact ⟨_, rfl, took_past hts ht hn htook⟩
      | apart => exact ⟨_, rfl, List.forall_mem_cons.mpr ⟨hn, htook⟩⟩

theorem addTerm_tidy (hts : TidyTerms ts) (ht : Proper t)
    (hadd : ∀ x ∈ ts, ∃ m, x.add t = .ok m ∧ Collects (x.summands ++ [t]) m) :
    ∃ us, Calls.unbounded.addTerm ts t = .ok us ∧ TidyTerms us ∧
      ∀ k, total (summandsAll us) k = total (summandsAll ts ++ [t]) k := by
  obtain ⟨o, ho, htook⟩ := offer_tidy hts ht hadd
  unfold Calls.addTerm
  rw [Calls.unbounded_isZero, ok_bind, ht.isZero, if_neg Bool.false_ne_true, ho, ok_bind]
  cases o with
  | merged us => exact ⟨us, rfl, htook.1.tidy, htook.1.total_eq⟩
  | grouped us => exact ⟨us, rfl, htook.1.tidy, htook.1.total_eq⟩
  | apart =>
    refine ⟨ts ++ [t], rfl, hts.concat ht (not_mem_keys_of_apart hts ht htook), fun k => ?_⟩
    rw [summandsAll_append, summandsAll, summandsAll, summands_of_kind ht.kind, List.append_nil]

/-- Tidy terms are a tidy sum, or what is left of one. -/
theorem TidyTerms.collects {us : List (Expr ℚ)} (h : TidyTerms us) : Collects (summandsAll us) (ofTerms us) := by
  match us with
  | [] => exact ⟨Or.inl rfl, fun k => by simp [ofTerms, summands, summandsAll]⟩
  | [u] => exact ⟨Or.inr (h.tidy u (by simp)), fun k => by simp [ofTerms, summandsAll]⟩
  | u :: v :: us => exact ⟨Or.inr (tidy_sum_iff.mpr ⟨by simp, h⟩), fun k => by simp [ofTerms, summands]⟩

end

theorem pair_gridless {α : Type} {a b : Expr α} (ha : Gridless a) (hb : Gridless b) : pair a b = .ok (.sum [a, b]) := by
  unfold pair
  rw [ha.neat.shape, hb.neat.shape]
  rfl

section
variable {x t : Expr ℚ}

theorem Proper.collects_pair (hx : Proper x) (ht : Proper t) (hne : x.key ≠ t.key) :
    Collects (x.summands ++ [t]) (.sum [x, t]) := by
  have hapart : Apart x t := by
    refine ht.apart ?_
    rw [keys_of_kind hx.kind, List.mem_singleton]
    exact hne.symm
  refine ⟨Or.inr (.sum le_rfl ?_ ?_ ?_), fun k => ?_⟩
  · simp [Tidy.leaf hx, Tidy.leaf ht]
  · simp [hx.uniform, ht.uniform]
  · simpa using hapart
  · simp [summands, summandsAll, summands_of_kind ht.kind]

/-- What two like terms make has the amounts of both, or they cancel. -/
theorem Proper.collects_like {m : Expr ℚ} (hx : Proper x) (h : x.key = t.key)
    (hm : m = .const 0 ∧ x.amount + t.amount = 0 ∨ Proper m ∧ m.key = x.key ∧ m.amount = x.amount + t.amount) :
    Collects (x.summands ++ [t]) m := by
  have htotal : ∀ k, total (x.summands ++ [t]) k = if x.key = k then x.amount + t.amount else 0 := by
    intro k
    rw [summands_of_kind hx.kind, total_append, total_single, total_single, ← h]
    split
    · rfl
    · exact add_zero 0
  rcases hm with ⟨rfl, hs⟩ | ⟨hm, hkey, hs⟩
  · refine ⟨Or.inl rfl, fun k => ?_⟩
    rw [htotal, hs, ite_self]
    simp [summands]
  · refine ⟨Or.inr (.leaf hm), fun k => ?_⟩
    rw [htotal, summands_of_kind hm.kind, total_single, hkey, hs]

theorem Proper.add_like (hx : Proper x) (ht : Proper t) (h : x.key = t.key) :
    ∃ m, x.add t = .ok m ∧ Collects (x.summands ++ [t]) m := by
  cases hx with
  | @const v hv =>
    cases ht with
    | @const w _ =>
      refine ⟨.const (v + w), ?_, collects_like (.const hv) h ?_⟩
      · rw [add_eq_ok_iff, Calls.addStep, if_neg (by simp [hv])]
        rfl
      · by_cases hs : v + w = 0
        · exact Or.inl ⟨by rw [hs], hs⟩
        · exact Or.inr ⟨.const hs, rfl, rfl⟩
    | var _ _ => cases h
  | @var m hq he =>
    cases ht with
    | const _ => cases h
    | @var n _ _ =>
      obtain ⟨hname, hexp⟩ := Prod.mk.inj (Option.some.inj h)
      refine ⟨ofMonomial { m with quantity := m.quantity + n.quantity }, ?_, collects_like (.var hq he) h ?_⟩
      · rw [add_eq_ok_iff, Calls.addStep, if_pos (by simp [Monomial.isLike, hname, hexp])]
        rfl
      · unfold ofMonomial
        by_cases hs : m.quantity + n.quantity = 0
        · exact Or.inl ⟨if_pos (by simpa using hs), hs⟩
        · rw [if_neg (by simpa using hs), if_neg (by simpa using he)]
          exact Or.inr ⟨.var hs he, rfl, rfl⟩

theorem Proper.add_unlike (hx : Proper x) (ht : Proper t) (h : x.key ≠ t.key) : x.add t = .ok (.sum [x, t]) := by
  have hpair : pair x t = .ok (.sum [x, t]) := pair_gridless hx.gridless ht.gridless
  have hunlike : Calls.unbounded.addUnlike x t = .ok (.sum [x, t]) := by
    unfold Calls.addUnlike
    rw [Calls.unbounded_isZero, ok_bind, ht.isZero, if_neg Bool.false_ne_true]
    exact lift_eq_ok.mpr hpair
  rw [add_eq_ok_iff]
  cases hx with
  | const hv =>
    cases ht with
    | const _ => exact absurd rfl h
    | var _ _ =>
      rw [Calls.addStep, if_neg (by simp [hv])]
      exact hunlike
      all_goals simp
  | @var m hq he =>
    have hm : ofMonomial m = .var m := by
      rw [ofMonomial, if_neg (by simpa using hq), if_neg (by simpa using he)]
    cases ht with
    | const _ =>
      rw [Calls.addStep, hm]
      exact hunlike
      all_goals simp
    | @var n _ _ =>
      have hlike : m.isLike n = false := by
        by_contra hl
        simp only [Monomial.isLike, Bool.not_eq_false, Bool.and_eq_true, beq_iff_eq, Rational.near_iff] at hl
        exact h (by rw [key, key, hl.1, hl.2])
      rw [Calls.addStep, if_neg (by simp [hlike]), hm]
      exact hunlike

/-- Addition collects one more term. -/
theorem Tidy.add_proper (hx : Tidy x) (ht : Proper t) : ∃ m, x.add t = .ok m ∧ Collects (x.summands ++ [t]) m := by
  induction hx with
  | @leaf x hx =>
    by_cases h : x.key = t.key
    · exact hx.add_like ht h
    · exact ⟨_, hx.add_unlike ht h, hx.collects_pair ht h⟩
  | @sum ts hlen hts hu ha ih =>
    obtain ⟨us, hus, htidy, htotal⟩ := addTerm_tidy ⟨hts, hu, ha⟩ ht ih
    have hshape : (Expr.sum ts).shape = .ok .scalar := (Tidy.sum hlen hts hu ha).gridless.neat.shape
    have hterms : t.terms = [t] := by cases ht <;> rfl
    refine ⟨ofTerms us, add_sum_eq_ok ht.gridless.kind hshape ht.gridless.neat.shape ?_, htidy.collects.tidy, fun k => ?_⟩
    · rw [hterms, List.foldlM_cons, hus]
      rfl
    · rw [htidy.collects.total_eq, htotal, summands]

/-! ## All terms -/

theorem add_zero_tidy (hx : Tidy x) : x.add (.const 0) = .ok x := by
  have hzero : (Expr.const (0 : ℚ)).isZero = true := rfl
  cases hx with
  | leaf hx =>
    rw [add_eq_ok_iff]
    cases hx with
    | @const v hv =>
      rw [Calls.addStep, if_neg (by simp [hv])]
      show Except.ok (Expr.const (v + 0)) = _
      rw [add_zero]
    | @var m hq he =>
      have hm : ofMonomial m = .var m := by
        rw [ofMonomial, if_neg (by simpa using hq), if_neg (by simpa using he)]
      rw [Calls.addStep, hm]
      rfl
      all_goals simp
  | @sum ts hlen hts hu ha =>
    have hshape : (Expr.sum ts).shape = .ok .scalar := (Tidy.sum hlen hts hu ha).gridless.neat.shape
    have hdrop : [Expr.const (0 : ℚ)].foldlM Calls.unbounded.addTerm ts = .ok ts := rfl
    rw [add_sum_eq_ok (b := .const 0) (by simp [kind]) hshape rfl hdrop]
    obtain ⟨t, u, ts, rfl⟩ : ∃ t u vs, ts = t :: u :: vs := by
      rcases ts with _ | ⟨t, _ | ⟨u, ts⟩⟩
      · simp at hlen
      · simp at hlen
      · exact ⟨t, u, ts, rfl⟩
    rfl

/-- A number, or a monomial that is neither zero nor free of its name. -/
inductive Simple : Expr ℚ → Prop
  | const (v : ℚ) : Simple (.const v)
  | var {m : Monomial ℚ} : m.quantity ≠ 0 → m.exponent ≠ 0 → Simple (.var m)

theorem Simple.proper_or_zero (h : Simple t) : t = .const 0 ∨ Proper t := by
  cases h with
  | const v =>
    by_cases hv : v = 0
    · exact Or.inl (by rw [hv])
    · exact Or.inr (.const hv)
  | var hq he => exact Or.inr (.var hq he)

/-- One more term is collected. -/
theorem Collects.add {ts : List (Expr ℚ)} (h : Collects ts x) (ht : Simple t) :
    ∃ m, x.add t = .ok m ∧ Collects (ts ++ [t]) m := by
  rcases h.tidy with rfl | hx
  · have hzero : ∀ k, total ts k = 0 := fun k => by
      rw [← h.total_eq]
      simp [summands]
    refine ⟨t, const_zero_add rfl t, ht.proper_or_zero.imp id .leaf, fun k => ?_⟩
    have hk : t.kind ≠ .sum := by cases ht <;> simp [kind]
    rw [summands_of_kind hk, total_append, hzero, zero_add]
  · rcases ht.proper_or_zero with rfl | ht
    · refine ⟨x, add_zero_tidy hx, Or.inr hx, fun k => ?_⟩
      rw [h.total_eq, total_append, total_zero, add_zero]
    · obtain ⟨m, hm, hc⟩ := hx.add_proper ht
      refine ⟨m, hm, hc.tidy, fun k => ?_⟩
      rw [hc.total_eq, total_append, total_append, h.total_eq]

/-- So are all terms, one after the other. -/
theorem Collects.foldlM_add {ts us : List (Expr ℚ)} (h : Collects ts x) (hus : ∀ u ∈ us, Simple u) :
    ∃ m, us.foldlM Expr.add x = .ok m ∧ Collects (ts ++ us) m := by
  induction us generalizing ts x with
  | nil => exact ⟨x, rfl, by rwa [List.append_nil]⟩
  | cons u us ih =>
    obtain ⟨hu, hus⟩ := List.forall_mem_cons.mp hus
    obtain ⟨y, hy, hc⟩ := h.add hu
    obtain ⟨m, hm, hc⟩ := ih hc hus
    refine ⟨m, ?_, by simpa using hc⟩
    rw [List.foldlM_cons, hy]
    exact hm

theorem sumOf_collects {ts : List (Expr ℚ)} (hts : ∀ t ∈ ts, Simple t) : ∃ c, sumOf ts = .ok c ∧ Collects ts c := by
  have start : Collects [] (.const 0) := ⟨Or.inl rfl, fun k => by simp [summands]⟩
  rw [sumOf_eq_foldlM rfl]
  exact start.foldlM_add hts

theorem mem_powers {ts : List (Expr ℚ)} {k : Option (String × ℚ)} : k ∈ powers ts ↔ total ts k ≠ 0 := by
  have hmem : total ts k ≠ 0 → k ∈ ts.map key := fun h => by
    by_contra hk
    exact h (total_eq_zero hk)
  rw [powers, List.mem_filter, List.mem_dedup, decide_eq_true_iff]
  exact ⟨And.right, fun h => ⟨hmem h, h⟩⟩

/-- The summands of what has been collected, in some order. -/
theorem Collects.perm {ts : List (Expr ℚ)} (h : Collects ts x) : x.summands.Perm (collected ts) := by
  unfold collected
  rcases h.tidy with rfl | hx
  · have hnone : powers ts = [] := by
      refine List.eq_nil_iff_forall_not_mem.mpr fun k hk => mem_powers.mp hk ?_
      rw [← h.total_eq]
      simp [summands]
    rw [if_pos hnone]
    exact .refl _
  · -- The powers of the summands are all different, so they are those that do not cancel, in some order.
    have hkeys : x.keys.Perm (powers ts) := by
      refine (List.perm_ext_iff_of_nodup hx.nodup ((List.nodup_dedup _).filter _)).mpr fun k => ?_
      rw [hx.mem_keys_iff, h.total_eq, ← mem_powers, powers]
    have hsome : powers ts ≠ [] := by
      obtain ⟨k, hk⟩ := hx.exists_key
      exact List.ne_nil_of_mem (hkeys.mem_iff.mp hk)
    have hterms : x.summands = x.keys.map fun k => ofAmount (total ts k) k := by
      rw [keys, List.map_map]
      refine (List.map_id' x.summands).symm.trans (List.map_congr_left fun u hu => ?_)
      show u = ofAmount (total ts u.key) u.key
      rw [← h.total_eq, total_eq_amount hx.nodup hu, (hx.proper u hu).ofAmount_eq]
    rw [if_neg hsome, hterms]
    exact hkeys.map _

/-- Numbers and monomials add up to a tree in which every power that does not cancel is found once, with
    its total, and nothing else is; in any order they add up to the same powers. -/
theorem sumOf_like_terms {ts : List (Expr ℚ)} (hts : ∀ t ∈ ts, Simple t) :
    ∃ c, sumOf ts = .ok c ∧ c.summands.Perm (collected ts) ∧
      ∀ us, ts.Perm us → ∃ d, sumOf us = .ok d ∧ d.summands.Perm c.summands := by
  obtain ⟨c, hc, hcollects⟩ := sumOf_collects hts
  refine ⟨c, hc, hcollects.perm, fun us hperm => ?_⟩
  obtain ⟨d, hd, hcollects'⟩ := sumOf_collects fun u hu => hts u (hperm.mem_iff.mpr hu)
  have hsame : Collects ts d := ⟨hcollects'.tidy, fun k => by
    rw [hcollects'.total_eq]
    exact ((hperm.map _).sum_eq).symm⟩
  exact ⟨d, hd, hsame.perm.trans hcollects.perm.symm⟩

/-- A square that cancels, while the first power joins a group of powers and the number stays outside. -/
theorem sumOf_like_terms_cancelled :
    ∃ c, sumOf [.var ⟨"x", 2, 2⟩, .var ⟨"x", 1, 1⟩, .const 3, .var ⟨"x", -2, 2⟩, .var ⟨"x", 1, (3 : ℚ)⟩] = .ok c ∧
      c.summands.Perm [.var ⟨"x", 1, 1⟩, .const 3, .var ⟨"x", 1, 3⟩] := by
  have hts : ∀ t ∈ [.var ⟨"x", 2, 2⟩, .var ⟨"x", 1, 1⟩, .const 3, .var ⟨"x", -2, 2⟩, .var ⟨"x", 1, (3 : ℚ)⟩], Simple t := by
    simp only [List.mem_cons, List.not_mem_nil, or_false, forall_eq_or_imp, forall_eq]
    exact ⟨.var (by simp) (by simp), .var (by simp) (by simp), .const 3, .var (by simp) (by simp), .var (by simp) (by simp)⟩
  obtain ⟨c, hc, hperm, _⟩ := sumOf_like_terms hts
  have hcollected : collected [.var ⟨"x", 2, 2⟩, .var ⟨"x", 1, 1⟩, .const 3, .var ⟨"x", -2, 2⟩, .var ⟨"x", 1, 3⟩] =
      [.var ⟨"x", 1, 1⟩, .const 3, .var ⟨"x", 1, 3⟩] := by cbv
  rw [hcollected] at hperm
  exact ⟨c, hc, hperm⟩

end

end SymbolicAlgebra.Expr
