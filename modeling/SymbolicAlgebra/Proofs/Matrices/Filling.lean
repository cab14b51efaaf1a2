/-
  SymbolicAlgebra.Proofs.Matrices.Filling — every matrix has a cell for each of its places.

  A grid keeps its dimensions beside its cells, and nothing in its type ties the two together. Grids are
  made filled (`Grid.filled_replicate`, `filled_identity`, `filled_square?`, `filled_ofRows?`), and no
  operation on trees leaves one in its result that is not, as long as its operands have none
  (`FilledIn`). So every grid that the operations and the parser can come to (`Made`) is filled, however
  often they are applied and however deep it is nested (`made_filled`): reading a cell succeeds at the
  places inside and nowhere else, and where two grids are multiplied no row and no column falls short.
-/

import SymbolicAlgebra.Proofs.Everywhere
import SymbolicAlgebra.Proofs.Grammar.Values
import SymbolicAlgebra.Proofs.Rational

namespace SymbolicAlgebra

namespace Expr

variable {α : Type}

/-! ## Trees with filled grids -/

/-- The condition that every grid is filled. -/
def filling (α : Type) : Condition α := ⟨fun _ => True, fun rows cols cells => cells = rows * cols⟩

/-- Every grid in the tree has a cell for each place. -/
def FilledIn (e : Expr α) : Prop := ∀ g, Occurs (.matrix g) e → g.Filled

theorem filledIn_iff {e : Expr α} : FilledIn e ↔ Everywhere (filling α) e := by
  rw [Everywhere.iff_occurs]
  exact ⟨fun h => ⟨fun _ _ => trivial, h⟩, fun h => h.2⟩

theorem FilledIn.child {e c : Expr α} (h : FilledIn e) (hc : c ∈ e.children) : FilledIn c :=
  fun g hg => h g (.child hc hg)

theorem filledIn_matrix {g : Grid (Expr α)} (hg : g.Filled) (hc : ∀ c ∈ g.cells, FilledIn c) : FilledIn (.matrix g) :=
  filledIn_iff.mpr (.matrix hg fun c h => filledIn_iff.mp (hc c h))

theorem FilledIn.transpose {g : Grid (Expr α)} (h : FilledIn (.matrix g)) : FilledIn (.matrix g.transpose) :=
  filledIn_matrix (h g .root).transpose fun _ hc => h.child (Grid.mem_cells_of_mem_transpose hc)

variable [Scalar α]

theorem filling_kept : (filling α).Kept where
  neg h := h
  bare h := h
  quantity _ h := h
  power _ _ _ h _ := h
  zip h h' := by rw [filling] at h h' ⊢; rw [h, h', min_self]
  mul _ _ := rfl

theorem filling_reciprocal : (filling α).Reciprocal := fun _ _ h => h

theorem FilledIn.apply {op : Operator} {a b c : Expr α} (h : op.apply a b = .ok c) (ha : FilledIn a) (hb : FilledIn b) :
    FilledIn c := by
  rw [filledIn_iff] at ha hb ⊢
  cases op with
  | add => exact Everywhere.add filling_kept h ha hb
  | sub => exact Everywhere.sub filling_kept h ha hb
  | mul => exact Everywhere.mul filling_kept h ha hb
  | div => exact Everywhere.div filling_kept filling_reciprocal h ha hb

theorem FilledIn.neg {e : Expr α} (h : FilledIn e) : FilledIn e.neg :=
  filledIn_iff.mpr (Everywhere.neg filling_kept (filledIn_iff.mp h))

theorem FilledIn.substitute {e v c : Expr α} {name : String} (h : e.substitute name v = .ok c) (he : FilledIn e)
    (hv : FilledIn v) : FilledIn c := by
  refine filledIn_iff.mpr (Everywhere.substitute filling_kept filling_reciprocal h ?_ (filledIn_iff.mp hv))
  exact Everywhere.iff_occurs.mpr ⟨fun _ _ _ => trivial, he⟩

theorem FilledIn.normalize {e c : Expr α} (h : e.normalize = .ok c) (he : FilledIn e) : FilledIn c :=
  filledIn_iff.mpr (Everywhere.normalize filling_kept h (filledIn_iff.mp he))

theorem filledIn_invariant : ParseTree.Invariant (α := α) FilledIn where
  number v := filledIn_iff.mpr (.const v)
  name _ := filledIn_iff.mpr (.var trivial)
  matrix := filledIn_matrix
  transpose := FilledIn.transpose
  neg := FilledIn.neg
  apply ha hb h := .apply h ha hb

/-! ## Everything that can be made -/

/-- The trees that can be made out of those that are given: by putting numbers, monomials and other such
    trees together, by the constructors of matrices, by the operations, and by reading a source. -/
inductive Made (given : Expr α → Prop) : Expr α → Prop
  | given {e : Expr α} : given e → Made given e
  | const (v : α) : Made given (.const v)
  | var (m : Monomial α) : Made given (.var m)
  | sum {ts : List (Expr α)} : (∀ t ∈ ts, Made given t) → Made given (.sum ts)
  | product {fs : List (Expr α)} : (∀ f ∈ fs, Made given f) → Made given (.product fs)
  | child {e c : Expr α} : Made given e → c ∈ e.children → Made given c
  | zeros (rows cols : Nat) : Made given (.matrix (.replicate rows cols (.const 0)))
  | identity (n : Nat) : Made given (.matrix (.identity n (.const 0) (.const 1)))
  | square {cells : List (Expr α)} {g : Grid (Expr α)} : (∀ c ∈ cells, Made given c) → Grid.square? cells = some g →
      Made given (.matrix g)
  | ofRows {rows : List (List (Expr α))} {g : Grid (Expr α)} : (∀ row ∈ rows, ∀ c ∈ row, Made given c) →
      Grid.ofRows? rows = some g → Made given (.matrix g)
  | set {g h : Grid (Expr α)} {i j : Nat} {c : Expr α} : Made given (.matrix g) → Made given c →
      g.set? i j c = some h → Made given (.matrix h)
  | transpose {g : Grid (Expr α)} : Made given (.matrix g) → Made given (.matrix g.transpose)
  | neg {e : Expr α} : Made given e → Made given e.neg
  | apply {op : Operator} {a b c : Expr α} : Made given a → Made given b → op.apply a b = .ok c → Made given c
  | sumOf {ts : List (Expr α)} {c : Expr α} : (∀ t ∈ ts, Made given t) → Expr.sumOf ts = .ok c → Made given c
  | range {fs : List (Expr α)} {start stop : Nat} {c : Expr α} : (∀ f ∈ fs, Made given f) →
      factorRange fs start stop = .ok c → Made given c
  | substitute {e v c : Expr α} {name : String} : Made given e → Made given v → e.substitute name v = .ok c →
      Made given c
  | normalize {e c : Expr α} : Made given e → e.normalize = .ok c → Made given c
  | readExpr {c c' : Cursor} {e : Located (Expr α)} : (Grammar.expr c).result = .ok (e, c') → Made given e.value
  | readMatrix {c c' : Cursor} {g : Located (Grid (Expr α))} : (Grammar.matrix c).result = .ok (g, c') →
      Made given (.matrix g.value)
  | readDefinition {c c' : Cursor} {d : Definition α} : (Grammar.definition c).result = .ok (d, c') →
      Made given d.value
  | parse {source : String} {p : Program α} {name : String} {value : Expr α} : Program.parse source = .ok p →
      (name, value) ∈ p.definitions → Made given value

variable {given : Expr α → Prop} {e : Expr α}

theorem Made.filledIn (hgiven : ∀ e, given e → FilledIn e) (h : Made given e) : FilledIn e := by
  induction h with
  | given h => exact hgiven _ h
  | const v => exact filledIn_iff.mpr (.const v)
  | var m => exact filledIn_iff.mpr (.var trivial)
  | sum _ ih => exact filledIn_iff.mpr (.sum fun t ht => filledIn_iff.mp (ih t ht))
  | product _ ih => exact filledIn_iff.mpr (.product fun f hf => filledIn_iff.mp (ih f hf))
  | child _ hc ih => exact ih.child hc
  | zeros rows cols =>
    refine filledIn_matrix (Grid.filled_replicate rows cols _) fun c hc => ?_
    rw [List.eq_of_mem_replicate hc]
    exact filledIn_iff.mpr (.const 0)
  | identity n =>
    refine filledIn_matrix (Grid.filled_identity n _ _) fun c hc => ?_
    obtain ⟨p, -, rfl⟩ := List.mem_map.mp hc
    dsimp only
    split
    · exact filledIn_iff.mpr (.const 1)
    · exact filledIn_iff.mpr (.const 0)
  | square _ hg ih =>
    obtain ⟨hfilled, hcells⟩ := Grid.filled_square? hg
    exact filledIn_matrix hfilled fun c hc => ih c (hcells ▸ hc)
  | ofRows _ hg ih =>
    refine filledIn_matrix (Grid.filled_ofRows? hg) fun c hc => ?_
    obtain ⟨row, hrow, hc⟩ := Grid.mem_cells_of_ofRows? hg hc
    exact ih row hrow c hc
  | set _ _ hset ihg ihc =>
    obtain ⟨hfilled, hcells⟩ := Grid.filled_set? (ihg _ .root) hset
    refine filledIn_matrix hfilled fun x hx => ?_
    rcases hcells x hx with hx | rfl
    · exact ihg.child hx
    · exact ihc
  | transpose _ ih => exact ih.transpose
  | neg _ ih => exact ih.neg
  | apply _ _ h iha ihb => exact .apply h iha ihb
  | sumOf _ h ih => exact filledIn_iff.mpr (Everywhere.sumOf filling_kept h fun t ht => filledIn_iff.mp (ih t ht))
  | range _ h ih => exact filledIn_iff.mpr (Everywhere.factorRange h fun f hf => filledIn_iff.mp (ih f hf))
  | substitute _ _ h ihe ihv => exact .substitute h ihe ihv
  | normalize _ h ih => exact .normalize h ih
  | readExpr h => exact filledIn_invariant.read (Grammar.exprWithin_sound _) h
  | readMatrix h => exact filledIn_invariant.read_matrix h
  | readDefinition h => exact filledIn_invariant.read_definition h
  | parse h hd =>
    exact Program.parse_invariant filledIn_invariant (fun _ _ _ _ => .substitute) (fun _ _ => .normalize) h _ _ hd

/-- If the trees that are given have filled grids only, then every grid of every tree that is made of
    them is filled. Its cells can be read and replaced at the places inside and nowhere else, and where
    it is multiplied with another such grid, the cells of its row and of the other's column are all there. -/
theorem made_filled (hgiven : ∀ e, given e → ∀ g, Occurs (.matrix g) e → g.Filled) (he : Made given e)
    {g : Grid (Expr α)} (hg : Occurs (.matrix g) e) :
    g.cells.length = g.rows * g.cols ∧
      (∀ i j, ((g.get? i j).isSome = true ↔ i < g.rows ∧ j < g.cols) ∧
        ∀ c, (g.set? i j c).isSome = true ↔ i < g.rows ∧ j < g.cols) ∧
      ∀ e' h, Made given e' → Occurs (.matrix h) e' → g.cols = h.rows → ∀ i < g.rows, ∀ j < h.cols,
        ((g.row i).zip (h.transpose.row j)).length = g.cols ∧
          ∀ k < g.cols, ∃ x y, g.cells[i * g.cols + k]? = some x ∧ h.cells[k * h.cols + j]? = some y ∧
            ((g.row i).zip (h.transpose.row j))[k]? = some (x, y) := by
  have hfilled : g.Filled := he.filledIn hgiven g hg
  refine ⟨hfilled, fun i j => ⟨hfilled.isSome_get?_iff, fun c => hfilled.isSome_set?_iff c⟩, ?_⟩
  intro e' h he' hh hd i hi j hj
  have hfilled' : h.Filled := he'.filledIn hgiven h hh
  refine ⟨Grid.length_row_zip_column hfilled hfilled' hd hi hj, fun k hk => ?_⟩
  obtain ⟨x, y, hx, hy, hxy⟩ := Grid.row_zip_column hfilled hfilled' hd hi hj hk
  rw [Grid.get?_of_lt hi hk] at hx
  rw [Grid.get?_of_lt (hd ▸ hk) hj] at hy
  exact ⟨x, y, hx, hy, hxy⟩

/-- A grid without columns times one without rows: every place gets a sum of no products. -/
theorem made_filled_hollow :
    let g : Grid (Expr ℚ) := ⟨2, 0, []⟩
    let h : Grid (Expr ℚ) := ⟨0, 3, []⟩
    ∃ p : Grid (Expr ℚ), (Expr.matrix g).mul (.matrix h) = .ok (.matrix p) ∧ p.shape = ⟨2, 3⟩ ∧ p.cells.length = 6 := by
  intro g h
  have hmul : Operator.mul.apply (Expr.matrix g) (.matrix h) = .ok (.matrix ⟨2, 3, List.replicate 6 (.const 0)⟩) := by cbv
  have hgiven : ∀ e, e = .matrix g ∨ e = .matrix h → ∀ k, Occurs (.matrix k) e → k.Filled := by
    rintro e (rfl | rfl) k hk
    · obtain rfl : k = g := by simpa [g] using hk
      rfl
    · obtain rfl : k = h := by simpa [h] using hk
      rfl
  have hmade : Made (fun e => e = .matrix g ∨ e = .matrix h) (.matrix ⟨2, 3, List.replicate 6 (.const 0)⟩) :=
    .apply (.given (Or.inl rfl)) (.given (Or.inr rfl)) hmul
  exact ⟨_, hmul, rfl, (made_filled hgiven hmade .root).1⟩

end Expr

end SymbolicAlgebra
