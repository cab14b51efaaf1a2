/-
  SymbolicAlgebra.Proofs.Dependencies — which references are left in the final values.

  The pass runs once through the names and looks at no name twice. Still, after the turn of a name
  that name is gone for good, unless it depends on itself: it could come back only with the value
  of a later source, and a name that occurs there has been replaced before or is on a cycle
  (`Settled.keep`, `Settled.replace`).
-/

import SymbolicAlgebra.Proofs.Rational
import SymbolicAlgebra.Proofs.FreeNames
import SymbolicAlgebra.Proofs.Resolution

namespace SymbolicAlgebra.Program

open Relation

variable {α : Type}

/-- One of the definitions has the name. -/
def Defined (ds : List (Definition α)) (name : String) : Prop := ∃ d ∈ ds, d.name = name

/-- A name, defined or not, occurs in what is written for another. -/
def Mentions (ds : List (Definition α)) (name other : String) : Prop :=
  ∃ d ∈ ds, d.name = name ∧ other ∈ d.value.freeNames

/-- A defined name occurs in what is written for another. -/
def Depends (ds : List (Definition α)) (name other : String) : Prop := Mentions ds name other ∧ Defined ds other

/-- A name is mentioned by a definition, or by one that it depends on, at any number of removes. -/
def Reaches (ds : List (Definition α)) (name other : String) : Prop :=
  ∃ last, ReflTransGen (Depends ds) name last ∧ Mentions ds last other

/-- The definition depends on itself. -/
def Cyclic (ds : List (Definition α)) (name : String) : Prop := TransGen (Depends ds) name name

/-- What the pass makes of the value of `name` when the names in `done` had their turn. -/
def Settled (ds : List (Definition α)) (done : List String) (name : String) (value : Expr α) : Prop :=
  ∀ x ∈ value.freeNames, Reaches ds name x ∧ (x ∈ done → Cyclic ds x)

variable {ds : List (Definition α)} {name other : String}

theorem Mentions.defined (h : Mentions ds name other) : Defined ds name := by
  obtain ⟨d, hd, hn, -⟩ := h
  exact ⟨d, hd, hn⟩

theorem Reaches.defined (h : Reaches ds name other) : Defined ds name := by
  obtain ⟨last, hl, hm⟩ := h
  cases hl.cases_head with
  | inl e => exact e ▸ hm.defined
  | inr h =>
    obtain ⟨_, hd, -⟩ := h
    exact hd.1.defined

theorem Reaches.trans {third : String} (h : Reaches ds name other) (h' : Reaches ds other third) :
    Reaches ds name third := by
  have hd := h'.defined
  obtain ⟨last, hl, hm⟩ := h
  obtain ⟨last', hl', hm'⟩ := h'
  exact ⟨last', (hl.tail ⟨hm, hd⟩).trans hl', hm'⟩

theorem Reaches.cyclic (h : Reaches ds name name) : Cyclic ds name := by
  have hd := h.defined
  obtain ⟨last, hl, hm⟩ := h
  exact TransGen.tail' hl ⟨hm, hd⟩

/-! ## One turn -/

theorem Settled.keep {done : List String} {target : String} {v value : Expr α} (hs : Settled ds done target v)
    (hv : Settled ds done name value) (h : target = name ∨ name ∉ v.freeNames) :
    Settled ds (done ++ [name]) target v := by
  intro x hx
  obtain ⟨hr, hc⟩ := hs x hx
  refine ⟨hr, fun hd => ?_⟩
  rcases List.mem_append.mp hd with hd | hd
  · exact hc hd
  · cases List.mem_singleton.mp hd
    rcases h with rfl | h
    · exact hr.cyclic
    · exact absurd hx h

variable [Scalar α]

theorem Settled.replace {done : List String} {target : String} {v v' value : Expr α} (hs : Settled ds done target v)
    (hv : Settled ds done name value) (hmem : name ∈ v.freeNames) (h : v.substitute name value = .ok v') :
    Settled ds (done ++ [name]) target v' := by
  intro x hx
  rcases Expr.freeNames_substitute h hx with ⟨hx, hne⟩ | hx
  · obtain ⟨hr, hc⟩ := hs x hx
    refine ⟨hr, fun hd => hc ?_⟩
    simpa [hne] using hd
  · -- The name came with the source, so it is reached through the name that was replaced.
    obtain ⟨hr, hc⟩ := hv x hx
    refine ⟨(hs name hmem).1.trans hr, fun hd => ?_⟩
    rcases List.mem_append.mp hd with hd | hd
    · exact hc hd
    · cases List.mem_singleton.mp hd
      exact hr.cyclic

/-! ## The whole pass -/

/-- After the pass a name is reached from the definition that it is left in, and if it is defined
    it is on a cycle. -/
theorem resolve_settled {es : List (Definition α)} (h : (resolve (sortByName ds)).result = .ok es) :
    es.map (·.name) = (sortByName ds).map (·.name) ∧
      ∀ e ∈ es, ∀ x ∈ e.value.freeNames, Reaches ds e.name x ∧ (Defined ds x → Cyclic ds x) := by
  obtain ⟨hnames, hes⟩ := resolve_induction (I := Settled ds) h
    (fun d hd x hx => ⟨⟨d.name, .refl, d, mem_sortByName.mp hd, rfl, hx⟩, nofun⟩)
    (fun _ _ _ _ _ hv hs h => hs.keep hv h)
    (fun _ _ _ _ _ _ hv hs _ hmem h => hs.replace hv hmem h)
  refine ⟨hnames, fun e he x hx => ⟨(hes e he x hx).1, ?_⟩⟩
  rintro ⟨d, hd, rfl⟩
  exact (hes e he d.name hx).2 (List.mem_map_of_mem (mem_sortByName.mpr hd))

/-- In the final values, a defined name is left only if it is on a cycle of what is written, and
    every name is reached from the definition that it is left in. -/
theorem parse_resolves {source : String} {p : Program α} (h : parse source = .ok p) :
    ∃ ds : List (Definition α), written source = .ok ds ∧ (∀ name, name ∈ p.names ↔ Defined ds name) ∧
      (∀ name value, (name, value) ∈ p.definitions → ∀ x ∈ value.freeNames,
        Reaches ds name x ∧ (Defined ds x → Cyclic ds x)) ∧
      ((∀ name, ¬ Cyclic ds name) → ∀ name value, (name, value) ∈ p.definitions → ∀ x ∈ value.freeNames, x ∉ p.names) := by
  obtain ⟨ds, es, hds, hes, hps⟩ := parse_eq_ok.mp h
  obtain ⟨hnames, hleft⟩ := resolve_settled hes
  have final : ∀ r ∈ p.definitions, ∀ x ∈ r.2.freeNames, Reaches ds r.1 x ∧ (Defined ds x → Cyclic ds x) := by
    refine forall_mem_right hps fun e he r hr x hx => ?_
    obtain ⟨s, hn, hv, -⟩ := finish_eq_ok.mp hr
    rw [hn]
    exact hleft e he x (Expr.freeNames_normalize hv hx)
  have defined : ∀ name, name ∈ p.names ↔ Defined ds name := by
    have hp : p.names = es.map (·.name) := map_eq_map hps fun e r hr => by
      obtain ⟨s, hn, -⟩ := finish_eq_ok.mp hr
      exact hn
    intro name
    rw [hp, hnames]
    simp [Defined, mem_sortByName]
  refine ⟨ds, hds, defined, fun name value hr => final (name, value) hr, fun acyclic name value hr x hx hd => ?_⟩
  exact acyclic x ((final (name, value) hr x hx).2 ((defined x).mp hd))

theorem parse_resolves_chain :
    parse "a=b+1;b=2*c;" = .ok (⟨[("a", .sum [.var ⟨"c", 2, 1⟩, .const 1]), ("b", .var ⟨"c", 2, 1⟩)]⟩ : Program ℚ) ∧
      ∃ ds : List (Definition ℚ), written "a=b+1;b=2*c;" = .ok ds ∧ Reaches ds "a" "c" := by
  have h : parse "a=b+1;b=2*c;" =
      .ok (⟨[("a", .sum [.var ⟨"c", 2, 1⟩, .const 1]), ("b", .var ⟨"c", 2, 1⟩)]⟩ : Program ℚ) := by cbv
  obtain ⟨ds, hds, -, hr, -⟩ := parse_resolves h
  exact ⟨h, ds, hds, (hr "a" _ List.mem_cons_self "c" (by decide)).1⟩

end SymbolicAlgebra.Program
