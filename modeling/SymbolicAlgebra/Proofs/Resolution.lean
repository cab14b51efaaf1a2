/-
  SymbolicAlgebra.Proofs.Resolution — the pass that puts definitions into one another.

  `parse_eq_ok` takes a successful reading apart into its stages: the definitions as they are
  written, the pass over all pairs, the final values. `resolve_induction` is the induction over
  the pass: what holds of every value at the start, and of a value after one more name was
  replaced, holds of every value at the end, whatever the values of the sources have become in
  the meantime.
-/

import SymbolicAlgebra.Proofs.Sequence
import SymbolicAlgebra.Program

namespace SymbolicAlgebra

/-! ## Computations that leave notes, over a list -/

namespace Logged

variable {ν ε β γ σ : Type}

instance : LawfulMonad (Logged ν ε) := by
  refine LawfulMonad.mk' _ ?_ ?_ ?_
  · rintro β ⟨ns, _ | b⟩
    · rfl
    · simp [Functor.map]
  · intro β γ b f
    simp [bind, pure]
  · rintro β γ δ ⟨ns, _ | b⟩ f g
    · rfl
    · rcases hf : f b with ⟨ms, _ | c⟩ <;> simp [bind, hf]

theorem result_bind_eq_ok {x : Logged ν ε β} {f : β → Logged ν ε γ} {c : γ} :
    (x >>= f).result = .ok c ↔ ∃ b, x.result = .ok b ∧ (f b).result = .ok c := by
  rw [result_bind, bind_eq_ok]

@[simp] theorem result_map (f : β → γ) (x : Logged ν ε β) : (f <$> x).result = f <$> x.result := by
  rcases x with ⟨ns, _ | b⟩ <;> rfl

theorem result_mapM (f : β → Logged ν ε γ) (xs : List β) : (xs.mapM f).result = xs.mapM fun x => (f x).result := by
  induction xs with
  | nil => rfl
  | cons x xs ih =>
    simp only [List.mapM_cons, result_bind, result_pure, ih]
    rfl

theorem result_foldlM (f : σ → β → Logged ν ε σ) (xs : List β) (s : σ) :
    (xs.foldlM f s).result = xs.foldlM (fun s x => (f s x).result) s := by
  induction xs generalizing s with
  | nil => rfl
  | cons x xs ih => simp [List.foldlM_cons, ih]

end Logged

namespace Program

variable {α : Type}

/-! ## The order of the definitions -/

theorem insertByName_perm (d : Definition α) (ds : List (Definition α)) : (insertByName d ds).Perm (d :: ds) := by
  induction ds with
  | nil => exact .refl _
  | cons e ds ih =>
    unfold insertByName
    split
    · exact .refl _
    · exact (ih.cons e).trans (.swap d e ds)

theorem sortByName_perm (ds : List (Definition α)) : (sortByName ds).Perm ds := by
  induction ds with
  | nil => exact .refl _
  | cons d ds ih => exact (insertByName_perm d (sortByName ds)).trans (ih.cons d)

theorem mem_sortByName {d : Definition α} {ds : List (Definition α)} : d ∈ sortByName ds ↔ d ∈ ds :=
  (sortByName_perm ds).mem_iff

@[simp] theorem blame_eq_ok {β : Type} {d : Definition α} {x : Except ArithError β} {b : β} :
    blame d x = .ok b ↔ x = .ok b := by
  cases x <;> simp [blame]

/-! ## The value of a name -/

theorem mem_of_get {p : Program α} {name : String} {value : Expr α} (h : p.get name = .ok value) :
    (name, value) ∈ p.definitions := by
  unfold get at h
  split at h
  · rename_i n v hf
    cases h
    have hn : n = name := by simpa using List.find?_some hf
    exact hn ▸ List.mem_of_find?_eq_some hf
  · cases h

theorem exists_get {p : Program α} {name : String} {value : Expr α} (h : (name, value) ∈ p.definitions) :
    ∃ v, p.get name = .ok v := by
  unfold get
  split
  · exact ⟨_, rfl⟩
  · rename_i hf
    exact absurd (beq_self_eq_true name) (List.find?_eq_none.mp hf _ h)

variable [Scalar α]

/-! ## One substitution -/

theorem substituteInto_eq_ok {source target d : Definition α} (h : (substituteInto source target).result = .ok d) :
    d.name = target.name ∧
      (d.value = target.value ∧ (target.name = source.name ∨ source.name ∉ target.value.freeNames) ∨
        target.name ≠ source.name ∧ source.name ∈ target.value.freeNames ∧
          target.value.substitute source.name source.value = .ok d.value) := by
  unfold substituteInto at h
  split at h
  · rename_i hn
    simp only [Logged.result_bind, Logged.result_tell, Logged.result_lift, Logged.result_pure, bind_eq_ok,
      blame_eq_ok] at h
    obtain ⟨-, -, v, hv, h⟩ := h
    cases h
    obtain ⟨hne, hmem⟩ : target.name ≠ source.name ∧ source.name ∈ target.value.freeNames := by simpa using hn
    exact ⟨rfl, Or.inr ⟨hne, hmem, hv⟩⟩
  · rename_i hn
    cases h
    exact ⟨rfl, Or.inl ⟨rfl, by simpa [or_iff_not_imp_left] using hn⟩⟩

/-- Replacing one name puts its definition, the first one of that name, into every value. -/
theorem eliminate_eq_ok {ds es : List (Definition α)} {name : String} (hname : name ∈ ds.map (·.name))
    (h : (eliminate ds name).result = .ok es) : ∃ source, ds.find? (·.name == name) = some source ∧
      source.name = name ∧ List.Forall₂ (fun d e => (substituteInto source d).result = .ok e) ds es := by
  unfold eliminate at h
  cases hs : ds.find? (·.name == name) with
  | none =>
    obtain ⟨d, hd, rfl⟩ := List.mem_map.mp hname
    exact absurd (beq_self_eq_true d.name) (List.find?_eq_none.mp hs d hd)
  | some source =>
    rw [hs] at h
    refine ⟨source, rfl, ?_, mapM_eq_ok.mp (by rw [← Logged.result_mapM]; exact h)⟩
    simpa using List.find?_some hs

/-! ## The whole pass -/

/-- What holds of every value before the pass, and after each of its turns, holds after it. `I`
    is about the names that had their turn, the name of a definition and its value. -/
theorem resolve_induction {I : List String → String → Expr α → Prop} {ds es : List (Definition α)}
    (h : (resolve ds).result = .ok es) (start : ∀ d ∈ ds, I [] d.name d.value)
    (keep : ∀ done name value target v, I done name value → I done target v →
      target = name ∨ name ∉ v.freeNames → I (done ++ [name]) target v)
    (replace : ∀ done name value target v v', I done name value → I done target v → target ≠ name →
      name ∈ v.freeNames → v.substitute name value = .ok v' → I (done ++ [name]) target v') :
    es.map (·.name) = ds.map (·.name) ∧ ∀ e ∈ es, I (ds.map (·.name)) e.name e.value := by
  unfold resolve at h
  rw [Logged.result_foldlM] at h
  refine foldlM_induction (P := fun done es => es.map (·.name) = ds.map (·.name) ∧ ∀ e ∈ es, I done e.name e.value)
    h ⟨rfl, start⟩ ?_
  rintro done name es es' hname ⟨hnames, hinv⟩ h
  obtain ⟨source, hfind, rfl, hes⟩ := eliminate_eq_ok (by rwa [hnames]) h
  have hsource : source ∈ es := List.mem_of_find?_eq_some hfind
  constructor
  · rw [← hnames]
    exact map_eq_map hes fun d e he => (substituteInto_eq_ok he).1
  · refine forall_mem_right hes fun d hd e he => ?_
    obtain ⟨hn, ⟨hv, hk⟩ | ⟨hne, hmem, hv⟩⟩ := substituteInto_eq_ok he
    · rw [hn, hv]
      exact keep done _ _ _ _ (hinv source hsource) (hinv d hd) hk
    · rw [hn]
      exact replace done _ _ _ _ _ (hinv source hsource) (hinv d hd) hne hmem hv

theorem resolve_names {ds es : List (Definition α)} (h : (resolve ds).result = .ok es) :
    es.map (·.name) = ds.map (·.name) :=
  (resolve_induction (I := fun _ _ _ => True) h (fun _ _ => trivial) (fun _ _ _ _ _ _ _ _ => trivial)
    fun _ _ _ _ _ _ _ _ _ _ _ => trivial).1

/-! ## A whole source -/

/-- The definitions of a source as they are written, before any is put into another. -/
def written (source : String) : Except Problem (List (Definition α)) :=
  let c := (Parser.ofSource source).cursor
  (readDefinitions c.rest.length [] c).result

theorem finish_eq_ok {d : Definition α} {r : String × Expr α} : (finish d).result = .ok r ↔
    ∃ s, r.1 = d.name ∧ d.value.normalize = .ok r.2 ∧ r.2.shape = .ok s := by
  obtain ⟨name, value⟩ := r
  simp only [finish, Logged.result_bind, Logged.result_tell, Logged.result_lift, Logged.result_pure, bind_eq_ok,
    blame_eq_ok, Except.ok.injEq, Prod.mk.injEq]
  constructor
  · rintro ⟨-, -, v, hv, s, hs, -, -, rfl, rfl⟩
    exact ⟨s, rfl, hv, hs⟩
  · rintro ⟨s, rfl, hv, hs⟩
    exact ⟨(), trivial, value, hv, s, hs, (), trivial, rfl, rfl⟩

/-- The stages of a reading that succeeds. -/
theorem parse_eq_ok {source : String} {p : Program α} : parse source = .ok p ↔
    ∃ ds es, written source = .ok ds ∧ (resolve (sortByName ds)).result = .ok es ∧
      List.Forall₂ (fun d r => (finish d).result = .ok r) es p.definitions := by
  simp only [parse, read, written, Logged.result_bind, Logged.result_pure, Logged.result_mapM, bind_eq_ok, mapM_eq_ok]
  constructor
  · rintro ⟨ds, hds, es, hes, rs, hrs, h⟩
    cases h
    exact ⟨ds, es, hds, hes, hrs⟩
  · rintro ⟨ds, es, hds, hes, hrs⟩
    exact ⟨ds, hds, es, hes, _, hrs, rfl⟩

end Program

end SymbolicAlgebra
