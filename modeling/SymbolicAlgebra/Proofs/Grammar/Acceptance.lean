/-
  SymbolicAlgebra.Proofs.Grammar.Acceptance — which sources can be read, and what their definitions are.

  A source can be read exactly if its words are definitions by the grammar whose trees have values,
  the names are distinct and no name occurs in its own value (`written_iff`). Reading a number never
  fails, so what can keep a tree of the grammar from having a value are rows of different lengths, a
  transposed value that is no matrix, and arithmetic.
-/

import SymbolicAlgebra.Proofs.Grammar.Scanning
import SymbolicAlgebra.Binary64
import SymbolicAlgebra.Proofs.Grammar.Soundness

namespace SymbolicAlgebra

/-! ## Numbers -/

theorem Binary64.isSome_ofText? {s : String} (h : (Numeral.ofText? s).isSome = true) :
    (Scalar.ofText? s : Option Float).isSome = true := by
  change (Binary64.ofText? s).isSome = true
  rw [Binary64.ofText?, Option.isSome_map, h]

/-- A number among the words of a source can be read. -/
theorem Source.number_readable {source text : String} (h : .number text ∈ Source.words source) :
    (Scalar.ofText? (String.ofList (text.toList.filter (· != '_'))) : Option Float).isSome = true := by
  obtain ⟨t, ht, hword⟩ := List.mem_map.mp h
  obtain ⟨hkind, rfl⟩ := Grammar.word_eq_number hword
  exact Binary64.isSome_ofText? (Token.number_readable (List.mem_of_mem_filter ht) hkind)

/-! ## The sign that can be missing -/

namespace ParseTree

/-- An expression in parentheses with any number of transpose signs. -/
inductive Parenthesized : ParseTree → Prop
  | paren {e : ParseTree} : Fits .expr e → Parenthesized (.paren e)
  | transpose {e : ParseTree} : Parenthesized e → Parenthesized (.transpose e)

theorem Parenthesized.fits {t : ParseTree} (h : Parenthesized t) : Fits .primed t := by
  induction h with
  | paren h => exact .operand (.paren h)
  | transpose _ ih => exact .transpose ih

theorem Parenthesized.head {t : ParseTree} (h : Parenthesized t) : t.words.head? = some (.sign .openParen) := by
  induction h with
  | paren => simp [words]
  | transpose _ ih => simp [words, ih]

theorem Fits.parenthesized {p : Phrase} {t : ParseTree} (h : Fits p t) (hp : p = .primed)
    (hhead : t.words.head? = some (.sign .openParen)) : Parenthesized t := by
  induction h with
  | operand h =>
    cases h with
    | paren h => exact .paren h
    | _ => simp [words] at hhead
  | transpose h ih =>
    obtain ⟨w, ws, hw, -⟩ := Grammar.head_of_fits h
    exact .transpose (ih rfl (by simpa [words, hw] using hhead))
  | _ => cases hp

/-- What follows a factor without a sign is an expression in parentheses with transpose signs. -/
theorem parenthesized_iff {t : ParseTree} :
    Parenthesized t ↔ Fits .unary t ∧ t.words.head? = some (.sign .openParen) := by
  refine ⟨fun h => ⟨.primed h.fits, h.head⟩, ?_⟩
  rintro ⟨h, hhead⟩
  cases h with
  | primed h => exact h.parenthesized rfl hhead
  | neg => simp [words] at hhead

end ParseTree

/-! ## Definitions beside one another -/

namespace Program

variable {α : Type} [Scalar α]

omit [Scalar α] in
theorem checkDefinition_eq_ok {before : List (Definition α)} {d : Definition α} :
    checkDefinition before d = .ok () ↔ d.name ∉ before.map (·.name) ∧ d.name ∉ d.value.freeNames := by
  unfold checkDefinition
  cases hf : before.find? (·.name == d.name) with
  | some first =>
    have hname : first.name = d.name := by simpa using List.find?_some hf
    have hmem : d.name ∈ before.map (·.name) := hname ▸ List.mem_map_of_mem (List.mem_of_find?_eq_some hf)
    simp [hmem]
  | none =>
    have hmem : d.name ∉ before.map (·.name) := by
      intro h
      obtain ⟨e, he, hname⟩ := List.mem_map.mp h
      exact List.find?_eq_none.mp hf e he (by simp [hname])
    by_cases hself : d.name ∈ d.value.freeNames <;> simp [hmem, hself]

/-- The definitions that are read have distinct names, and none occurs in its own value. -/
theorem readDefinitions_checked {n : Nat} {done ds : List (Definition α)} {c : Cursor}
    (h : (readDefinitions n done c).result = .ok ds) (hnames : (done.map (·.name)).Nodup)
    (hself : ∀ d ∈ done, d.name ∉ d.value.freeNames) :
    (ds.map (·.name)).Nodup ∧ ∀ d ∈ ds, d.name ∉ d.value.freeNames := by
  induction n generalizing done c with
  | zero =>
    cases h
    exact ⟨hnames, hself⟩
  | succ n ih =>
    rw [readDefinitions] at h
    split at h
    · cases h
      exact ⟨hnames, hself⟩
    · obtain ⟨⟨d, c₁⟩, -, h⟩ := Logged.result_bind_eq_ok.mp h
      obtain ⟨-, -, h⟩ := Logged.result_bind_eq_ok.mp h
      obtain ⟨_, hcheck, h⟩ := Logged.result_bind_eq_ok.mp h
      rw [Logged.result_lift, checkDefinition_eq_ok] at hcheck
      refine ih h ?_ (List.forall_mem_append.mpr ⟨hself, by simpa using hcheck.2⟩)
      rw [List.map_append, List.map_singleton]
      exact List.nodup_append'.mpr ⟨hnames, List.nodup_singleton _, by simpa using hcheck.1⟩

/-- Definitions that the grammar writes and that can stand beside one another are all read. -/
theorem exists_readDefinitions {ss : List Statement} {vs : List (String × Expr α)}
    (hfits : ∀ s ∈ ss, s.body.Fits .expr)
    (hvs : List.Forall₂ (fun s v => s.name = v.1 ∧ s.body.expr? = some v.2) ss vs) {n : Nat}
    {done : List (Definition α)} {c : Cursor} (hw : c.words = ss.flatMap Statement.words) (hn : c.rest.length ≤ n)
    (hnames : (done.map (·.name) ++ vs.map Prod.fst).Nodup) (hself : ∀ v ∈ vs, v.1 ∉ v.2.freeNames) :
    ∃ ds, (readDefinitions n done c).result = .ok ds := by
  induction hvs generalizing n done c with
  | nil =>
    have hend : c.atEnd = true := Cursor.atEnd_iff.mpr hw
    cases n with
    | zero => exact ⟨done, rfl⟩
    | succ n => exact ⟨done, by simp [readDefinitions, hend]⟩
  | @cons s v ss vs hv _ ih =>
    obtain ⟨hs, hfits⟩ := List.forall_mem_cons.mp hfits
    obtain ⟨hself, hselves⟩ := List.forall_mem_cons.mp hself
    rw [List.flatMap_cons] at hw
    have hpos := Cursor.length_pos_of_words (show c.words = _ :: _ by rw [hw, Statement.words, List.cons_append])
    obtain ⟨n, rfl⟩ := Nat.exists_eq_succ_of_ne_zero (by omega : n ≠ 0)
    have hend : c.atEnd ≠ true := by
      rw [ne_eq, Cursor.atEnd_iff, hw, Statement.words, List.cons_append]
      exact List.cons_ne_nil _ _
    have hr := Grammar.definition_of_words (α := α) hs hw
    rw [hv.2] at hr
    obtain ⟨d, c', hd, hname, hvalue, hw', hl⟩ := hr
    have hcheck : checkDefinition done d = .ok () := by
      rw [checkDefinition_eq_ok, hname, hv.1, hvalue]
      refine ⟨fun hmem => ?_, hself⟩
      exact (List.nodup_append'.mp hnames).2.2 hmem List.mem_cons_self
    obtain ⟨ds, hds⟩ : ∃ ds, (readDefinitions n (done ++ [d]) c').result = .ok ds :=
      ih hfits hw' (by omega) (by simpa [hname, hv.1] using hnames) hselves
    exact ⟨ds, by simp [readDefinitions, hend, hd, hcheck, hds]⟩

/-! ## Sources -/

/-- The definitions of a source can be read exactly if its words are written by the grammar, every
    tree has a value, the names are distinct and no name occurs in its own value. The values are those
    of the trees, however the source is written by the grammar; and its numbers can all be read. -/
theorem written_iff (source : String) (vs : List (String × Expr Float)) :
    ((∃ ds, written source = .ok ds ∧ ds.map (fun d => (d.name, d.value)) = vs) ↔
      ∃ ss, Statement.Spell ss source ∧
        List.Forall₂ (fun s v => s.name = v.1 ∧ s.body.expr? = some v.2) ss vs ∧
        (vs.map Prod.fst).Nodup ∧ ∀ v ∈ vs, v.1 ∉ v.2.freeNames) ∧
      (∀ ss ds, Statement.Spell ss source → written source = .ok ds →
        List.Forall₂ (fun s (d : Definition Float) => d.name = s.name ∧ s.body.expr? = some d.value) ss ds) ∧
      ∀ text, .number text ∈ Source.words source →
        (Scalar.ofText? (String.ofList (text.toList.filter (· != '_'))) : Option Float).isSome = true := by
  refine ⟨⟨?_, ?_⟩, fun ss ds hs h => written_of_spell hs h, fun text h => Source.number_readable h⟩
  · rintro ⟨ds, hds, rfl⟩
    obtain ⟨ss, hss⟩ := spell_of_written hds
    obtain ⟨hnames, hself⟩ := readDefinitions_checked hds List.nodup_nil (by simp)
    refine ⟨ss, hss, ?_, by simpa [Function.comp_def] using hnames, List.forall_mem_map.mpr hself⟩
    rw [List.forall₂_map_right_iff]
    exact (written_of_spell hss hds).imp fun s d hd => ⟨hd.1.symm, hd.2⟩
  · rintro ⟨ss, hss, hvs, hnames, hself⟩
    obtain ⟨ds, hds⟩ : ∃ ds, written source = .ok ds :=
      exists_readDefinitions hss.2 hvs hss.1 le_rfl (by simpa using hnames) hself
    refine ⟨ds, hds, ?_⟩
    -- The names and the values of the trees determine the definitions that are read.
    have unique : Relator.RightUnique fun (s : Statement) (v : String × Expr Float) =>
        s.name = v.1 ∧ s.body.expr? = some v.2 := by
      rintro s ⟨n, v⟩ ⟨n', v'⟩ ⟨rfl, hv⟩ ⟨rfl, hv'⟩
      rw [hv] at hv'
      cases hv'
      rfl
    refine unique.forall₂ (List.forall₂_map_right_iff.mpr ?_) hvs
    exact (written_of_spell hss hds).imp fun s d hd => ⟨hd.1.symm, hd.2⟩

theorem written_iff_transposed : ∃ ds : List (Definition Float), written "A = [x, y]';" = .ok ds ∧
    ds.map (fun d => (d.name, d.value)) = [("A", .matrix ⟨2, 1, [.ofName "x", .ofName "y"]⟩)] := by
  refine (written_iff _ _).1.mpr ⟨[⟨"A", .transpose (.matrix [[.name "x", .name "y"]])⟩], ⟨by cbv, ?_⟩, ?_, ?_, ?_⟩
  · have entry : ∀ n, (ParseTree.name n).Fits .expr := fun n => .term (.unary (.primed (.operand (.name n))))
    simp only [List.forall_mem_singleton]
    exact .term (.unary (.primed (.transpose (.operand (.matrix (by simp) (by simp) (by simp [entry]))))))
  · exact .cons ⟨rfl, rfl⟩ .nil
  · simp
  · decide

end Program

end SymbolicAlgebra
