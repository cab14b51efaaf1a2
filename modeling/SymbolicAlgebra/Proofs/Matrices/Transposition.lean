/-
  SymbolicAlgebra.Proofs.Matrices.Transposition — the transposed grid, place by place.

  The place of a cell in the transposed grid can be computed from its place in the grid (`newPlace`).
  Transposing the places again leads back (`newPlace_newPlace`), so every place is the new one of
  exactly one cell (`newPlaces_perm`). The transposed grid therefore has the cells in the order of
  their new places (`bySorting_eq_transpose`), and a grid that is transposed twice is the grid itself
  (`transpose_transpose`).
-/

import SymbolicAlgebra.Proofs.Grids

namespace SymbolicAlgebra

/-! ## Places -/

namespace Shape

/-- Columns and rows. -/
def swap (s : Shape) : Shape := ⟨s.cols, s.rows⟩

/-- The place that the cell at a place gets in the transposed grid. -/
def newPlace (s : Shape) (k : Nat) : Nat := k % s.cols * s.rows + k / s.cols

variable {s : Shape} {i j k : Nat}

theorem newPlace_eq (hj : j < s.cols) : s.newPlace (i * s.cols + j) = j * s.rows + i := by
  rw [newPlace, Grid.place_mod hj, Grid.place_div hj]

theorem newPlace_lt (hk : k < s.rows * s.cols) : s.newPlace k < s.cols * s.rows := by
  obtain ⟨i, hi, j, hj, rfl⟩ := Grid.exists_place hk
  rw [newPlace_eq hj]
  exact Grid.place_lt hj hi

theorem newPlace_newPlace (hk : k < s.rows * s.cols) : s.swap.newPlace (s.newPlace k) = k := by
  obtain ⟨i, hi, j, hj, rfl⟩ := Grid.exists_place hk
  rw [newPlace_eq hj]
  exact newPlace_eq (s := s.swap) hi

/-- Every place is the new place of one place. -/
theorem newPlaces_perm (s : Shape) :
    ((List.range (s.rows * s.cols)).map s.newPlace).Perm (List.range (s.cols * s.rows)) := by
  have hnodup : ((List.range (s.rows * s.cols)).map s.newPlace).Nodup := by
    refine List.Nodup.map_on (fun k hk l hl heq => ?_) List.nodup_range
    rw [← newPlace_newPlace (List.mem_range.mp hk), heq, newPlace_newPlace (List.mem_range.mp hl)]
  refine (List.perm_ext_iff_of_nodup hnodup List.nodup_range).mpr fun k => ⟨fun hk => ?_, fun hk => ?_⟩
  · obtain ⟨l, hl, rfl⟩ := List.mem_map.mp hk
    exact List.mem_range.mpr (newPlace_lt (List.mem_range.mp hl))
  · have hk := List.mem_range.mp hk
    exact List.mem_map.mpr ⟨s.swap.newPlace k, List.mem_range.mpr (newPlace_lt (s := s.swap) hk),
      newPlace_newPlace (s := s.swap) hk⟩

end Shape

/-! ## Sorting by numbers -/

/-- The elements in the order of the numbers in front of them. -/
def sortByNumber {β : Type} (xs : List (Nat × β)) : List β := (xs.mergeSort fun p q => p.1 ≤ q.1).map Prod.snd

section
variable {β : Type} {xs : List (Nat × β)} {n : Nat}

theorem sortByNumber_perm (xs : List (Nat × β)) : (sortByNumber xs).Perm (xs.map Prod.snd) :=
  (List.mergeSort_perm xs fun p q => p.1 ≤ q.1).map Prod.snd

/-- If the numbers are those below `n`, each once, then every element gets to the place that its number
    says. -/
theorem getElem?_sortByNumber (h : (xs.map Prod.fst).Perm (List.range n)) {k : Nat} {x : β} (hx : (k, x) ∈ xs) :
    (sortByNumber xs)[k]? = some x := by
  have hperm := List.mergeSort_perm xs fun p q => p.1 ≤ q.1
  have hsorted : (xs.mergeSort fun p q => p.1 ≤ q.1).Pairwise fun p q => decide (p.1 ≤ q.1) = true :=
    List.pairwise_mergeSort (fun a b c hab hbc => by simpa using le_trans (by simpa using hab) (by simpa using hbc))
      (fun a b => by simpa using le_total a.1 b.1) xs
  have hnumbers : (xs.mergeSort fun p q => p.1 ≤ q.1).map Prod.fst = List.range n := by
    refine List.Perm.eq_of_pairwise' (r := (· ≤ ·)) ?_ List.pairwise_le_range ((hperm.map Prod.fst).trans h)
    exact List.pairwise_map.mpr (hsorted.imp fun hle => by simpa using hle)
  obtain ⟨m, hm⟩ := List.mem_iff_getElem?.mp (hperm.mem_iff.mpr hx)
  have hk : (List.range n)[m]? = some k := by rw [← hnumbers, List.getElem?_map, hm, Option.map_some]
  obtain ⟨-, rfl⟩ : m < n ∧ m = k := by simpa [List.getElem?_eq_some_iff] using hk
  rw [sortByNumber, List.getElem?_map, hm, Option.map_some]

end

/-! ## Transposing -/

namespace Grid

variable {β : Type} {g : Grid β}

/-- The transposed grid, from the cells sorted by their new places. -/
def transposeBySorting (g : Grid β) : Grid β :=
  ⟨g.cols, g.rows, sortByNumber (g.cells.mapIdx fun k c => (g.shape.newPlace k, c))⟩

theorem transpose_transpose (hg : g.Filled) : g.transpose.transpose = g :=
  ext_entries rfl hg.transpose.transpose hg fun i _ j _ => (get?_transpose hg.transpose j i).trans (get?_transpose hg i j)

theorem bySorting_eq_transpose (hg : g.Filled) : g.transposeBySorting = g.transpose := by
  have hnumbers : ((g.cells.mapIdx fun k c => (g.shape.newPlace k, c)).map Prod.fst).Perm
      (List.range (g.cols * g.rows)) := by
    have hmap : (g.cells.mapIdx fun k c => (g.shape.newPlace k, c)).map Prod.fst =
        (List.range (g.rows * g.cols)).map g.shape.newPlace := by
      rw [← hg]
      exact List.ext_getElem (by simp) fun k _ _ => by simp
    rw [hmap]
    exact g.shape.newPlaces_perm
  have hfilled : g.transposeBySorting.Filled := by
    rw [Filled, transposeBySorting, (sortByNumber_perm _).length_eq, List.length_map, List.length_mapIdx, hg, Nat.mul_comm]
  refine ext_entries rfl hfilled hg.transpose fun j hj i hi => ?_
  obtain ⟨c, hc⟩ := Option.isSome_iff_exists.mp (hg.isSome hi hj)
  have hplace : g.shape.newPlace (i * g.cols + j) = j * g.rows + i := Shape.newPlace_eq (s := g.shape) hj
  have hmem : (j * g.rows + i, c) ∈ g.cells.mapIdx fun k c => (g.shape.newPlace k, c) :=
    List.mem_iff_getElem?.mpr
      ⟨i * g.cols + j, by rw [List.getElem?_mapIdx, ← get?_of_lt hi hj, hc, Option.map_some, hplace]⟩
  rw [get?_transpose hg i j, hc, get?_of_lt hj hi]
  exact getElem?_sortByNumber hnumbers hmem

/-- The cells change their order only. -/
theorem transpose_perm (hg : g.Filled) : g.transpose.cells.Perm g.cells := by
  rw [← bySorting_eq_transpose hg]
  refine (sortByNumber_perm _).trans (List.Perm.of_eq ?_)
  exact List.ext_getElem (by simp) fun k _ _ => by simp

/-- The transposed grid has the columns of the grid as its rows, and transposing it again gives the grid
    back. Sorting the cells by the places that they get comes to the same. -/
theorem transpose_swaps (hg : g.Filled) :
    g.transpose.shape = ⟨g.cols, g.rows⟩ ∧ g.transpose.cells.length = g.cols * g.rows ∧
      (∀ i < g.rows, ∀ j < g.cols, ∃ c, g.get? i j = some c ∧ g.transpose.get? j i = some c) ∧
      g.transpose.transpose = g ∧ g.transpose = g.transposeBySorting := by
  refine ⟨rfl, hg.transpose, fun i hi j hj => ?_, transpose_transpose hg, (bySorting_eq_transpose hg).symm⟩
  obtain ⟨c, hc⟩ := Option.isSome_iff_exists.mp (hg.isSome hi hj)
  exact ⟨c, hc, (get?_transpose hg i j).trans hc⟩

/-- A grid with more columns than rows, and one without rows. -/
theorem transpose_swaps_oblong :
    (⟨2, 3, [1, 2, 3, 4, 5, 6]⟩ : Grid Nat).transpose.transpose = ⟨2, 3, [1, 2, 3, 4, 5, 6]⟩ ∧
      (⟨2, 3, [1, 2, 3, 4, 5, 6]⟩ : Grid Nat).transposeBySorting = ⟨3, 2, [1, 4, 2, 5, 3, 6]⟩ ∧
      (⟨0, 3, []⟩ : Grid Nat).transpose.transpose = ⟨0, 3, []⟩ := by
  obtain ⟨-, -, -, htwice, hsort⟩ := transpose_swaps (g := (⟨2, 3, [1, 2, 3, 4, 5, 6]⟩ : Grid Nat)) rfl
  obtain ⟨-, -, -, hempty, -⟩ := transpose_swaps (g := (⟨0, 3, []⟩ : Grid Nat)) rfl
  exact ⟨htwice, hsort ▸ rfl, hempty⟩

end Grid

end SymbolicAlgebra
