/-
  SymbolicAlgebra.Proofs.Matrices.Programs — a name that stands for a matrix, and the matrix in its place.

  While a program is read, a name is a single number to whatever stands around it, also when it is
  defined as a matrix. So a definition need not come to what it would come to with the matrix in the
  place of the name: a matrix next to the name multiplies it cell by cell (`parse_misses_entry`).

  Where the name is the only matrix and numbers are added to numbers and matrices to matrices, it does
  (`parse_inlined`). Each turn of the substitution pass keeps what a value stands for, whether it
  replaces something (`Standing.replace`) or not (`Standing.keep`): before the turn of the matrix as a
  tree in which its name stands for it, and afterwards as one with grids.
-/

import SymbolicAlgebra.Proofs.Dependencies
import SymbolicAlgebra.Proofs.Grammar.Acceptance
import SymbolicAlgebra.Proofs.Grammar.Values
import SymbolicAlgebra.Proofs.Matrices.Quantities

namespace SymbolicAlgebra

/-! ## Matrices as they are written -/

namespace Grid

variable {β γ : Type}

theorem ofRows?_map (f : β → γ) (rows : List (List β)) :
    ofRows? (rows.map (List.map f)) = (ofRows? rows).map (Grid.map f) := by
  cases rows with
  | nil => rfl
  | cons row rows =>
    simp only [ofRows?, List.map_cons, List.isEmpty_map, List.any_map, Function.comp_def, List.length_map]
    split
    · rfl
    · simp [map, List.map_flatten]

end Grid

namespace ParseTree

open SymbolicAlgebra.Expr

variable {ν : String → Option ℚ} {name : String} {M : Grid ℚ} {rows : List (List ParseTree)}

/-- A matrix of numbers can be written as an operand. -/
theorem fits_numbers {rows : List (List ParseTree)} (hrows : rows ≠ [] ∧ ∀ row ∈ rows, row ≠ [])
    (h : ∀ row ∈ rows, ∀ t ∈ row, ∃ s, t = .number s) : Fits .operand (.matrix rows) := by
  refine .matrix hrows.1 hrows.2 fun row hrow t ht => ?_
  obtain ⟨s, rfl⟩ := h row hrow t ht
  exact .term (.unary (.primed (.operand (.number s))))

/-- The entries are written as the numbers of the matrix. -/
def Literal (ν : String → Option ℚ) (name : String) (rows : List (List ParseTree)) (M : Grid ℚ) : Prop :=
  ∃ vs, List.Forall₂ (List.Forall₂ fun t v => t.quantity? ν name M = some (.number v)) rows vs ∧ Grid.ofRows? vs = some M

theorem row?_eq_some {α : Type} [Scalar α] {ts : List ParseTree} {es : List (Expr α)} (h : row? ts = some es) :
    List.Forall₂ (fun t e => t.expr? = some e) ts es := by
  induction ts generalizing es with
  | nil =>
    cases h
    exact .nil
  | cons t ts ih =>
    obtain ⟨a, ha, h⟩ := Option.bind_eq_some_iff.mp h
    obtain ⟨as, has, h⟩ := Option.bind_eq_some_iff.mp h
    cases h
    exact .cons ha (ih has)

theorem rows?_eq_some {α : Type} [Scalar α] {rs : List (List ParseTree)} {ess : List (List (Expr α))}
    (h : rows? rs = some ess) : List.Forall₂ (List.Forall₂ fun t e => t.expr? = some e) rs ess := by
  induction rs generalizing ess with
  | nil =>
    cases h
    exact .nil
  | cons r rs ih =>
    obtain ⟨a, ha, h⟩ := Option.bind_eq_some_iff.mp h
    obtain ⟨as, has, h⟩ := Option.bind_eq_some_iff.mp h
    cases h
    exact .cons (row?_eq_some ha) (ih has)

/-- The numbers that stand in the cells of a matrix that is read. -/
theorem Literal.cells (hM : Literal ν name rows M) {e : Expr ℚ} (he : (ParseTree.matrix rows).expr? = some e)
    {R : Expr ℚ → ℚ → Prop} (hR : ∀ t x v, ParseTree.expr? t = some x → t.quantity? ν name M = some (.number v) → R x v)
    {f : Expr ℚ → ℚ} (hf : ∀ x v, R x v → f x = v) :
    ∃ g, e = .matrix g ∧ g.Filled ∧ g.map f = M ∧ ∀ x ∈ g.cells, ∃ v, R x v := by
  obtain ⟨vs, hvs, hM⟩ := hM
  obtain ⟨ess, hess, h⟩ := Option.bind_eq_some_iff.mp he
  obtain ⟨g, hg, h⟩ := Option.bind_eq_some_iff.mp h
  cases h
  have hrows : List.Forall₂ (List.Forall₂ R) ess vs := by
    refine (forall₂_comp (rows?_eq_some hess).flip hvs).imp ?_
    rintro es vs ⟨ts, hts, hvs⟩
    exact (forall₂_comp hts.flip hvs).imp fun x v ⟨t, hx, hv⟩ => hR t x v hx hv
  have hmap : ess.map (List.map f) = vs := by
    rw [← vs.map_id]
    exact (map_eq_map hrows fun es vs h => by
      rw [← vs.map_id]
      exact map_eq_map h fun x v hxv => (hf x v hxv).symm).symm
  refine ⟨g, rfl, Grid.filled_ofRows? hg, ?_, fun x hx => ?_⟩
  · rw [← hmap, Grid.ofRows?_map, hg] at hM
    exact Option.some.inj hM
  · obtain ⟨es, hes, hx⟩ := Grid.mem_cells_of_ofRows? hg hx
    obtain ⟨vs, -, h⟩ := exists_mem_right hrows hes
    obtain ⟨v, -, h⟩ := exists_mem_right h hx
    exact ⟨v, h⟩

theorem Literal.filled (hM : Literal ν name rows M) : M.Filled := by
  obtain ⟨_, -, hM⟩ := hM
  exact Grid.filled_ofRows? hM

section
variable {ρ : String → ℚ} {N : Nat} {t : ParseTree} {e : Expr ℚ} {x : Quantity} (hN : M.shape.Fits N)
  (hν : ∀ n v, ν n = some v → ρ n = v)
include hN hν

/-- An expression that mentions the matrix by its name. -/
theorem expr?_represents (hM : M.Filled) (he : t.expr? = some e) (hx : t.quantity? ν name M = some x) :
    Represents (some name) ν M ρ N e x := by
  rw [← inline_name name t] at he
  refine inline_represents hN hν (fun n hn h => hn (Option.some.inj h).symm) (fun e he => ?_) he hx
  cases he
  have hexponent : (Monomial.ofName name : Monomial ℚ).exponent = ((1 : ℕ) : ℚ) := Nat.cast_one.symm
  refine ⟨⟨⟨isMatrix_var.mpr ⟨rfl, 1, one_pos, hexponent⟩, .var ⟨1, by simpa using hexponent, by omega⟩⟩, rfl, hM, ?_⟩,
    fun n hn => ?_⟩
  · rw [ofName, Interpretation.value_var, Interpretation.monomial, hexponent, Int.floor_natCast]
    simp [matrices, Monomial.ofName]
  · have hn : n = name := by simpa [ofName, Monomial.ofName, freeNames] using hn
    exact Or.inl (congrArg some hn.symm)

/-- A matrix as it is written. -/
theorem Literal.represents (hM : Literal ν name rows M) (he : (ParseTree.matrix rows).expr? = some e) :
    Represents none ν M ρ N e (.matrix M) := by
  obtain ⟨g, rfl, hf, hmap, hcells⟩ := hM.cells he (f := eval ρ)
    (R := fun x v => Represents (some name) ν M ρ N x (.number v))
    (fun t x v hx hv => expr?_represents hN hν hM.filled hx hv) fun x v h => h.1.2
  refine ⟨⟨⟨isMatrix_matrix.mpr ⟨rfl, by rw [← hmap]; rfl, hf, fun x hx => ?_⟩, .matrix trivial fun x hx => ?_⟩, rfl,
    hM.filled, by rw [← hmap]; rfl⟩, everywhere_named.mp (.matrix trivial fun x hx => ?_)⟩
  · obtain ⟨v, h⟩ := hcells x hx
    exact h.without_name.1.1.1
  · obtain ⟨v, h⟩ := hcells x hx
    exact h.1.1.2.defined
  · obtain ⟨v, h⟩ := hcells x hx
    exact everywhere_named.mpr h.without_name.2

/-- An expression with the matrix in the place of its name. -/
theorem inlined_represents (hM : Literal ν name rows M) (he : (t.inline name (.paren (.matrix rows))).expr? = some e)
    (hx : t.quantity? ν name M = some x) : Represents none ν M ρ N e x :=
  inline_represents hN hν (fun n _ h => nomatch h) (fun e he => hM.represents hN hν (by rwa [expr?] at he)) he hx

end

end ParseTree

/-! ## The substitution pass -/

namespace Program

open SymbolicAlgebra.Expr

/-- The numbers of names and the matrix of one name satisfy the definitions: `matrix` is written as the
    matrix `M`, and a name that has a number and a definition is defined as that number. -/
structure Satisfied (ν : String → Option ℚ) (matrix : String) (M : Grid ℚ) (rows : List (List ParseTree))
    (ss : List Statement) : Prop where
  written : ⟨matrix, .matrix rows⟩ ∈ ss
  literal : ParseTree.Literal ν matrix rows M
  solved : ∀ s ∈ ss, ∀ v, ν s.name = some v → s.body.quantity? ν matrix M = some (.number v)

/-- What the values stand for while definitions are put into one another. The value of `target`
    mentions the matrix by name until the turn of `matrix`. -/
structure Standing (ν : String → Option ℚ) (matrix target : String) (M : Grid ℚ) (x : Quantity) (ρ : String → ℚ) (N : Nat)
    (done : List String) (name : String) (value : Expr ℚ) : Prop where
  ofNumber : ∀ v, ν name = some v → Represents (some matrix) ν M ρ N value (.number v)
  ofMatrix : name = matrix → Represents none ν M ρ N value (.matrix M)
  ofTarget : name = target → Represents none ν M ρ N value x ∨ matrix ∉ done ∧ Represents (some matrix) ν M ρ N value x

section
variable {ν : String → Option ℚ} {matrix target : String} {M : Grid ℚ} {x : Quantity} {ρ : String → ℚ} {N : Nat}
  {done : List String} {name : String} {value v v' : Expr ℚ}

/-- A number that is put in for its name. -/
theorem Standing.of_known (hν : ∀ n v, ν n = some v → ρ n = v) (h : Standing ν matrix target M x ρ N done name value)
    (hname : ν name ≠ none) : Represents (some matrix) ν M ρ N value (.number (ρ name)) := by
  obtain ⟨w, hw⟩ := Option.ne_none_iff_exists'.mp hname
  rw [hν name w hw]
  exact h.ofNumber w hw

theorem Standing.keep (hN : M.shape.Fits N) {other : String} (hne : target ≠ matrix)
    (hname : Standing ν matrix target M x ρ N done name value) (h : Standing ν matrix target M x ρ N done other v)
    (hkeep : other = name ∨ name ∉ v.freeNames) : Standing ν matrix target M x ρ N (done ++ [name]) other v := by
  refine ⟨h.ofNumber, h.ofMatrix, fun ht => ?_⟩
  rcases h.ofTarget ht with hv | ⟨hdone, hv⟩
  · exact Or.inl hv
  · by_cases hm : name = matrix
    · subst hm
      -- There is nothing to replace, so the value stands for the same with or without the name.
      have hmem : name ∉ v.freeNames := hkeep.resolve_left fun he => hne (ht.symm.trans he)
      exact Or.inl (hv.substitute_matrix hN (substitute_of_not_mem hmem) (hname.ofMatrix rfl))
    · exact Or.inr ⟨by simpa [Ne.symm hm] using hdone, hv⟩

theorem Standing.replace (hN : M.shape.Fits N) (hν : ∀ n v, ν n = some v → ρ n = v) (hmatrix : ν matrix = none)
    {other : String} (hname : Standing ν matrix target M x ρ N done name value)
    (h : Standing ν matrix target M x ρ N done other v) (hmem : name ∈ v.freeNames)
    (hsub : v.substitute name value = .ok v') : Standing ν matrix target M x ρ N (done ++ [name]) other v' := by
  -- Without the name of the matrix, what is replaced is a name that has a number.
  have number : ∀ {y}, Represents none ν M ρ N v y → Represents none ν M ρ N v' y := by
    intro y hv
    have hvalue := hname.of_known hν ((hv.2 name hmem).resolve_left nofun)
    exact hv.substitute_number hN hsub hvalue.without_name nofun
  have named : ∀ {y}, ν name ≠ none → Represents (some matrix) ν M ρ N v y → Represents (some matrix) ν M ρ N v' y := by
    intro y hnumber hv
    refine hv.substitute_number hN hsub (hname.of_known hν hnumber) ?_
    rintro ⟨⟩
    exact hnumber hmatrix
  refine ⟨fun w hw => ?_, fun ho => number (h.ofMatrix ho), fun ho => ?_⟩
  · exact named ((h.ofNumber w hw).number_ne_none hmem) (h.ofNumber w hw)
  · rcases h.ofTarget ho with hv | ⟨hdone, hv⟩
    · exact Or.inl (number hv)
    · rcases hv.2 name hmem with hm | hnumber
      · obtain rfl := Option.some.inj hm
        exact Or.inl (hv.substitute_matrix hN hsub (hname.ofMatrix rfl))
      · refine Or.inr ⟨?_, named hnumber hv⟩
        have hne : matrix ≠ name := fun he => hnumber (he ▸ hmatrix)
        simpa [hne] using hdone

end

/-! ## Whole programs -/

/-- A source that can be read defines every name once. -/
theorem spell_nodup {α : Type} [Scalar α] {source : String} {ds : List (Definition α)} {ss : List Statement} (hss : Statement.Spell ss source)
    (h : written source = .ok ds) : (ss.map (·.name)).Nodup := by
  rw [← map_eq_map (f := (·.name)) (g := (·.name)) (written_of_spell hss h) fun s d hd => hd.1]
  exact (readDefinitions_checked h List.nodup_nil (by simp)).1

section
variable {ν : String → Option ℚ} {matrix target : String} {M : Grid ℚ} {rows : List (List ParseTree)} {x : Quantity}
  {ρ : String → ℚ} {N : Nat} {ss : List Statement}

theorem Satisfied.number_eq_none (h : Satisfied ν matrix M rows ss) : ν matrix = none := by
  by_contra hsome
  obtain ⟨v, hv⟩ := Option.ne_none_iff_exists'.mp hsome
  cases h.solved _ h.written v hv

/-- Before the pass the values stand for what is written. -/
theorem Satisfied.start (h : Satisfied ν matrix M rows ss) (hN : M.shape.Fits N) (hν : ∀ n v, ν n = some v → ρ n = v)
    (hnames : (ss.map (·.name)).Nodup) {body : ParseTree} (hbody : ⟨target, body⟩ ∈ ss)
    (hstart : ∀ e, body.expr? = some e → Represents none ν M ρ N e x ∨ Represents (some matrix) ν M ρ N e x)
    {s : Statement} (hs : s ∈ ss) {e : Expr ℚ} (he : s.body.expr? = some e) :
    Standing ν matrix target M x ρ N [] s.name e := by
  have unique : ∀ {t : Statement}, t ∈ ss → s.name = t.name → s = t := fun ht h => List.inj_on_of_nodup_map hnames hs ht h
  refine ⟨fun v hv => ?_, fun hn => ?_, fun hn => ?_⟩
  · exact ParseTree.expr?_represents hN hν h.literal.filled he (h.solved s hs v hv)
  · cases unique h.written hn
    exact h.literal.represents hN hν he
  · cases unique hbody hn
    exact (hstart e he).imp_right fun h => ⟨List.not_mem_nil, h⟩

/-- A definition comes to a value that has a shape and stands for what the definition did. -/
theorem parse_stands {source : String} {p : Program ℚ} (hp : parse source = .ok p) (hss : Statement.Spell ss source)
    (h : Satisfied ν matrix M rows ss) (hN : M.shape.Fits N) (hν : ∀ n v, ν n = some v → ρ n = v) (hne : target ≠ matrix)
    {body : ParseTree} (hbody : ⟨target, body⟩ ∈ ss)
    (hstart : ∀ e, body.expr? = some e → Represents none ν M ρ N e x ∨ Represents (some matrix) ν M ρ N e x)
    {value : Expr ℚ} (hget : p.get target = .ok value) :
    (∃ t, value.shape = .ok t) ∧ Stands none M.shape ρ (M.padded N) value x := by
  obtain ⟨ds, es, hds, hes, hps⟩ := parse_eq_ok.mp hp
  have hread := written_of_spell hss hds
  have hstanding := (resolve_induction (I := Standing ν matrix target M x ρ N) hes (fun d hd => ?_)
    (fun _ _ _ _ _ hname hv hkeep => hname.keep hN hne hv hkeep)
    (fun _ _ _ _ _ _ hname hv _ hmem hsub => hname.replace hN hν h.number_eq_none hv hmem hsub)).2
  · have hmatrix : matrix ∈ (sortByName ds).map (·.name) := by
      obtain ⟨d, hd, hname, -⟩ := exists_mem_right hread h.written
      exact List.mem_map.mpr ⟨d, mem_sortByName.mpr hd, hname⟩
    refine forall_mem_right (Q := fun r => r.1 = target → (∃ t, r.2.shape = .ok t) ∧
      Stands none M.shape ρ (M.padded N) r.2 x) hps (fun e he r hr htarget => ?_) _ (mem_of_get hget) rfl
    obtain ⟨t, hn, hv, ht⟩ := finish_eq_ok.mp hr
    -- The matrix had its turn, so its name is gone.
    have hvalue := ((hstanding e he).ofTarget (hn.symm.trans htarget)).resolve_right fun h => h.1 hmatrix
    exact ⟨⟨t, ht⟩, hvalue.1.normalize hN hv⟩
  · exact forall_mem_right (Q := fun d => Standing ν matrix target M x ρ N [] d.name d.value) hread
      (fun s hs d hd => hd.1 ▸ h.start hN hν (spell_nodup hss hds) hbody hstart hs hd.2) d (mem_sortByName.mp hd)

/-- A definition without a number does not count among those to be satisfied. -/
theorem Satisfied.insert {before after : List Statement} (h : Satisfied ν matrix M rows (before ++ after)) {s : Statement}
    (hs : ν s.name = none) : Satisfied ν matrix M rows (before ++ s :: after) := by
  refine ⟨?_, h.literal, fun t ht v hv => ?_⟩
  · simpa using Or.imp_right Or.inr (List.mem_append.mp h.written)
  · rcases List.mem_append.mp ht with ht | ht
    · exact h.solved t (List.mem_append_left _ ht) v hv
    · rcases List.mem_cons.mp ht with rfl | ht
      · rw [hs] at hv
        cases hv
      · exact h.solved t (List.mem_append_right _ ht) v hv

end

/-- Matrices of a shape fit into square ones as large as its longer side. -/
theorem fits_max (s : Shape) : s.Fits (max s.rows s.cols) := by
  refine ⟨le_max_left _ _, le_max_right _ _, fun h => ?_⟩
  rw [h]
  rfl

/-- A name that stands for a matrix can be replaced by the matrix: if it is the only matrix of an
    expression, which adds numbers to numbers and matrices to matrices, then the expression comes to
    the same with the matrix in the place of the name. -/
theorem parse_inlined {source source' : String} {p p' : Program ℚ} (hp : parse source = .ok p) (hp' : parse source' = .ok p')
    {before after : List Statement} {matrix target : String} {rows : List (List ParseTree)} {body : ParseTree}
    (hs : Statement.Spell (before ++ ⟨target, body⟩ :: after) source)
    (hs' : Statement.Spell (before ++ ⟨target, body.inline matrix (.paren (.matrix rows))⟩ :: after) source')
    {ν : String → Option ℚ} {M : Grid ℚ} {x : Quantity} (hν : Satisfied ν matrix M rows (before ++ after))
    (htarget : ν target = none) (hx : body.quantity? ν matrix M = some x) :
    ∃ value value', p.get target = .ok value ∧ p'.get target = .ok value' ∧
      ∀ ρ : String → ℚ, (∀ n v, ν n = some v → ρ n = v) → Expr.Defined ρ value ∧ Expr.Defined ρ value' ∧
        ∃ g g', value.grid? ρ = some g ∧ value'.grid? ρ = some g' ∧ g.Same g' := by
  have hmem : ∀ b : ParseTree, Statement.mk target b ∈ before ++ ⟨target, b⟩ :: after := by simp
  obtain ⟨value, hget⟩ := exists_get_of_spell hp hs (hmem _)
  obtain ⟨value', hget'⟩ := exists_get_of_spell hp' hs' (hmem _)
  refine ⟨value, value', hget, hget', fun ρ hρ => ?_⟩
  have hne : target ≠ matrix := by
    obtain ⟨ds, -, hds, -⟩ := parse_eq_ok.mp hp
    have hnames := spell_nodup hs hds
    rintro rfl
    have hwritten := List.mem_map_of_mem (f := (·.name)) hν.written
    rw [List.map_append, List.map_cons, List.nodup_middle, ← List.map_append] at hnames
    exact (List.nodup_cons.mp hnames).1 hwritten
  -- The sources differ in the one statement, so what is known of the names holds in both.
  have hN := fits_max M.shape
  have hsat : ∀ b : ParseTree, Satisfied ν matrix M rows (before ++ ⟨target, b⟩ :: after) := fun b => hν.insert htarget
  obtain ⟨⟨t, ht⟩, hstands⟩ := parse_stands (x := x) hp hs (hsat _) hN hρ hne (hmem _)
    (fun e he => Or.inr (ParseTree.expr?_represents hN hρ hν.literal.filled he hx)) hget
  obtain ⟨⟨t', ht'⟩, hstands'⟩ := parse_stands (x := x) hp' hs' (hsat _) hN hρ hne (hmem _)
    (fun e he => Or.inl (ParseTree.inlined_represents hN hρ hν.literal he hx)) hget'
  exact ⟨hstands.asSorted.2, hstands'.asSorted.2, hstands.same hN hstands' ht ht'⟩

/-- A nilpotent matrix is added to its square. With its name the sum is left to be added. -/
theorem parse_inlined_square : ∃ p p' : Program ℚ, parse "A=[0,1;0,0];C=A*A+A;" = .ok p ∧
    parse "A=[0,1;0,0];C=([0,1;0,0])*([0,1;0,0])+([0,1;0,0]);" = .ok p' ∧
    ∃ value value', p.get "C" = .ok value ∧ p'.get "C" = .ok value' ∧ ∀ ρ : String → ℚ,
      Expr.Defined ρ value ∧ Expr.Defined ρ value' ∧
        ∃ g g', value.grid? ρ = some g ∧ value'.grid? ρ = some g' ∧ g.Same g' := by
  obtain ⟨p, hp⟩ : ∃ p : Program ℚ, parse "A=[0,1;0,0];C=A*A+A;" = .ok p :=
    ⟨⟨[("A", .matrix ⟨2, 2, [.const 0, .const 1, .const 0, .const 0]⟩),
      ("C", .sum [.matrix ⟨2, 2, [.const 0, .const 0, .const 0, .const 0]⟩,
        .matrix ⟨2, 2, [.const 0, .const 1, .const 0, .const 0]⟩])]⟩, by cbv⟩
  obtain ⟨p', hp'⟩ : ∃ p : Program ℚ, parse "A=[0,1;0,0];C=([0,1;0,0])*([0,1;0,0])+([0,1;0,0]);" = .ok p :=
    ⟨⟨[("A", .matrix ⟨2, 2, [.const 0, .const 1, .const 0, .const 0]⟩),
      ("C", .matrix ⟨2, 2, [.const 0, .const 1, .const 0, .const 0]⟩)]⟩, by cbv⟩
  let rows : List (List ParseTree) := [[.number "0", .number "1"], [.number "0", .number "0"]]
  let sum (a : ParseTree) : ParseTree := .binary .add (.binary .mul a a) a
  have hA : (ParseTree.matrix rows).Fits .expr :=
    .term (.unary (.primed (.operand (ParseTree.fits_numbers (by simp [rows]) (by simp [rows])))))
  have hsum : ∀ a : ParseTree, a.Fits .operand → (sum a).Fits .expr := fun a ha =>
    .additive (Or.inl rfl) (.term (.multiplicative (Or.inl rfl) (.unary (.primed (.operand ha))) (.primed (.operand ha))))
      (.unary (.primed (.operand ha)))
  have hinline : (sum (.name "A")).inline "A" (.paren (.matrix rows)) = sum (.paren (.matrix rows)) := by
    simp [sum, ParseTree.inline]
  have hs : Statement.Spell ([⟨"A", .matrix rows⟩] ++ ⟨"C", sum (.name "A")⟩ :: []) "A=[0,1;0,0];C=A*A+A;" :=
    ⟨by cbv, by simpa using ⟨hA, hsum _ (.name _)⟩⟩
  have hs' : Statement.Spell ([⟨"A", .matrix rows⟩] ++ ⟨"C", (sum (.name "A")).inline "A" (.paren (.matrix rows))⟩ :: [])
      "A=[0,1;0,0];C=([0,1;0,0])*([0,1;0,0])+([0,1;0,0]);" := by
    rw [hinline]
    exact ⟨by cbv, by simpa using ⟨hA, hsum _ (.paren hA)⟩⟩
  have hν : Satisfied (fun _ => none) "A" ⟨2, 2, [0, 1, 0, 0]⟩ rows ([⟨"A", .matrix rows⟩] ++ []) := by
    have zero : (ParseTree.number "0").quantity? (fun _ => none) "A" ⟨2, 2, [0, 1, 0, 0]⟩ = some (.number 0) := by cbv
    have one : (ParseTree.number "1").quantity? (fun _ => none) "A" ⟨2, 2, [0, 1, 0, 0]⟩ = some (.number 1) := by cbv
    refine ⟨List.mem_cons_self, ⟨[[0, 1], [0, 0]], ?_, rfl⟩, by simp⟩
    exact .cons (.cons zero (.cons one .nil)) (.cons (.cons zero (.cons zero .nil)) .nil)
  obtain ⟨value, value', hget, hget', h⟩ := parse_inlined hp hp' hs hs' hν rfl (x := .matrix ⟨2, 2, [0, 1, 0, 0]⟩) (by cbv)
  exact ⟨_, _, hp, hp', value, value', hget, hget', fun ρ => h ρ (by simp)⟩

/-- A row and a column pick an entry of a matrix. -/
theorem parse_picks_entry : parse "A=[0,1;0,0];C=[1,0]*([0,1;0,0])*[0;1];" =
    .ok (⟨[("A", .matrix ⟨2, 2, [.const 0, .const 1, .const 0, .const 0]⟩), ("C", .matrix ⟨1, 1, [.const 1]⟩)]⟩ : Program ℚ) := by
  cbv

/-- They miss the entry where the matrix goes by its name: the name is multiplied into a cell of the
    row, and the column leaves that cell out. -/
theorem parse_misses_entry : ∃ (rows : List (List ParseTree)) (body : ParseTree) (value value' : Expr ℚ),
    (Statement.Spell [⟨"A", .matrix rows⟩, ⟨"C", body⟩] "A=[0,1;0,0];C=[1,0]*A*[0;1];" ∧
      ∃ p, parse "A=[0,1;0,0];C=[1,0]*A*[0;1];" = .ok p ∧ p.get "C" = .ok value) ∧
    (Statement.Spell [⟨"A", .matrix rows⟩, ⟨"C", body.inline "A" (.paren (.matrix rows))⟩]
        "A=[0,1;0,0];C=[1,0]*([0,1;0,0])*[0;1];" ∧
      ∃ p, parse "A=[0,1;0,0];C=[1,0]*([0,1;0,0])*[0;1];" = .ok p ∧ p.get "C" = .ok value') ∧
    ∀ ρ : String → ℚ, value.grid? ρ = some (.number 0) ∧ value'.grid? ρ = some (.number 1) := by
  have hp : parse "A=[0,1;0,0];C=[1,0]*A*[0;1];" =
      .ok (⟨[("A", .matrix ⟨2, 2, [.const 0, .const 1, .const 0, .const 0]⟩), ("C", .matrix ⟨1, 1, [.const 0]⟩)]⟩ :
        Program ℚ) := by cbv
  let rows : List (List ParseTree) := [[.number "0", .number "1"], [.number "0", .number "0"]]
  let row : ParseTree := .matrix [[.number "1", .number "0"]]
  let column : ParseTree := .matrix [[.number "0"], [.number "1"]]
  let pick (a : ParseTree) : ParseTree := .binary .mul (.binary .mul row a) column
  have hA : (ParseTree.matrix rows).Fits .expr :=
    .term (.unary (.primed (.operand (ParseTree.fits_numbers (by simp [rows]) (by simp [rows])))))
  have hrow : row.Fits .operand := ParseTree.fits_numbers (by simp) (by simp)
  have hcolumn : column.Fits .operand := ParseTree.fits_numbers (by simp) (by simp)
  have hpick : ∀ a : ParseTree, a.Fits .operand → (pick a).Fits .expr := fun a ha =>
    .term (.multiplicative (Or.inl rfl) (.multiplicative (Or.inl rfl) (.unary (.primed (.operand hrow)))
      (.primed (.operand ha))) (.primed (.operand hcolumn)))
  have hinline : (pick (.name "A")).inline "A" (.paren (.matrix rows)) = pick (.paren (.matrix rows)) := by
    simp [pick, row, column, ParseTree.inline, ParseTree.inlineRows, ParseTree.inlineRow]
  refine ⟨rows, pick (.name "A"), _, _, ⟨⟨by cbv, ?_⟩, _, hp, rfl⟩, ⟨?_, _, parse_picks_entry, rfl⟩, fun ρ => ⟨?_, ?_⟩⟩
  · simpa using ⟨hA, hpick _ (.name _)⟩
  · rw [hinline]
    exact ⟨by cbv, by simpa using ⟨hA, hpick _ (.paren hA)⟩⟩
  · simp only [Expr.grid?, Expr.numbers?]
    rfl
  · simp only [Expr.grid?, Expr.numbers?]
    rfl

end Program

end SymbolicAlgebra
