/-
  SymbolicAlgebra.Proofs.Grids — the entries of a grid.

  A grid is made with a cell for each of its places (`filled_replicate`, `filled_identity`,
  `filled_square?`, `filled_ofRows?`). It is then known by its entries (`ext_entries`): a row, a
  transposed grid and a grid worked on cell by cell have those that one expects (`getElem?_row`,
  `get?_transpose`, `get?_map`). The rows together are all the cells (`Filled.flatMap_row`), and so are
  the pieces that the cells are cut into (`chunks_rows`).
-/

import Mathlib
import SymbolicAlgebra.Grid

namespace SymbolicAlgebra

namespace Grid

variable {β γ : Type} {g : Grid β} {i j : Nat}

/-! ## Places -/

/-- The place of an entry is one of those that the dimensions promise. -/
theorem place_lt {r c i j : Nat} (hi : i < r) (hj : j < c) : i * c + j < r * c :=
  calc i * c + j < i * c + c := by omega
    _ = (i + 1) * c := by ring
    _ ≤ r * c := Nat.mul_le_mul_right c hi

theorem place_div {c i j : Nat} (hj : j < c) : (i * c + j) / c = i := by
  rw [Nat.add_comm, Nat.add_mul_div_right _ _ (Nat.zero_lt_of_lt hj), Nat.div_eq_of_lt hj, Nat.zero_add]

theorem place_mod {c i j : Nat} (hj : j < c) : (i * c + j) % c = j := by
  rw [Nat.add_comm, Nat.add_mul_mod_self_right, Nat.mod_eq_of_lt hj]

/-- Every place is that of an entry. -/
theorem exists_place {r c k : Nat} (hk : k < r * c) : ∃ i < r, ∃ j < c, i * c + j = k := by
  have hpos : 0 < c := Nat.pos_of_ne_zero fun h0 => by simp [h0] at hk
  exact ⟨k / c, (Nat.div_lt_iff_lt_mul hpos).mpr hk, k % c, Nat.mod_lt k hpos, Nat.div_add_mod' k c⟩

theorem getElem?_places (s : Shape) {i j : Nat} (hi : i < s.rows) (hj : j < s.cols) :
    s.places[i * s.cols + j]? = some (i, j) := by
  have hlt := place_lt hi hj
  simp [Shape.places, hlt, place_div hj, place_mod hj]

theorem mem_places {s : Shape} {p : Nat × Nat} (h : p ∈ s.places) : p.1 < s.rows ∧ p.2 < s.cols := by
  obtain ⟨k, hk, rfl⟩ := List.mem_map.mp h
  obtain ⟨i, hi, j, hj, rfl⟩ := exists_place (List.mem_range.mp hk)
  rw [place_div hj, place_mod hj]
  exact ⟨hi, hj⟩

theorem rows_of_shape {s : Shape} (h : g.shape = s) : g.rows = s.rows := congrArg Shape.rows h

theorem cols_of_shape {s : Shape} (h : g.shape = s) : g.cols = s.cols := congrArg Shape.cols h

/-! ## Entries -/

theorem get?_eq_none (h : ¬ (i < g.rows ∧ j < g.cols)) : g.get? i j = none := if_neg h

theorem get?_of_lt (hi : i < g.rows) (hj : j < g.cols) :
    g.get? i j = g.cells[i * g.cols + j]? := if_pos ⟨hi, hj⟩

theorem Filled.isSome (h : g.Filled) (hi : i < g.rows) (hj : j < g.cols) :
    (g.get? i j).isSome = true := by
  have hlt := place_lt hi hj
  rw [← h] at hlt
  simp [get?_of_lt hi hj, hlt]

/-- A cell can be read at the places inside, and nowhere else. -/
theorem Filled.isSome_get?_iff (hg : g.Filled) : (g.get? i j).isSome = true ↔ i < g.rows ∧ j < g.cols := by
  refine ⟨fun h => ?_, fun h => hg.isSome h.1 h.2⟩
  by_contra hb
  rw [get?_eq_none hb] at h
  cases h

/-- A cell can be replaced at the places inside, and nowhere else. -/
theorem Filled.isSome_set?_iff (hg : g.Filled) (c : β) : (g.set? i j c).isSome = true ↔ i < g.rows ∧ j < g.cols := by
  have hlt : i < g.rows → j < g.cols → i * g.cols + j < g.cells.length := fun hi hj => by
    rw [hg]
    exact place_lt hi hj
  unfold set?
  constructor
  · intro h
    split at h
    · rename_i hb
      exact ⟨hb.1, hb.2.1⟩
    · cases h
  · rintro ⟨hi, hj⟩
    rw [if_pos ⟨hi, hj, hlt hi hj⟩]
    rfl

/-- Filled grids of one shape are the same if they have the same entries. -/
theorem ext_entries {h : Grid β} (hs : g.shape = h.shape) (hg : g.Filled) (hh : h.Filled)
    (he : ∀ i < g.rows, ∀ j < g.cols, g.get? i j = h.get? i j) : g = h := by
  obtain ⟨r, c, xs⟩ := g
  obtain ⟨r', c', ys⟩ := h
  obtain ⟨rfl, rfl⟩ : r = r' ∧ c = c' := by simpa [shape] using hs
  congr 1
  refine List.ext_getElem? fun k => ?_
  by_cases hk : k < r * c
  · obtain ⟨i, hi, j, hj, rfl⟩ := exists_place hk
    have hplace := he i hi j hj
    rwa [get?_of_lt (g := ⟨r, c, xs⟩) hi hj, get?_of_lt (g := ⟨r, c, ys⟩) hi hj] at hplace
  · rw [List.getElem?_eq_none (by rw [show xs.length = r * c from hg]; omega),
      List.getElem?_eq_none (by rw [show ys.length = r * c from hh]; omega)]

theorem get?_map (f : β → γ) (g : Grid β) (i j : Nat) : (g.map f).get? i j = (g.get? i j).map f := by
  unfold get? map
  by_cases h : i < g.rows ∧ j < g.cols
  · simp [h]
  · simp [h]

theorem Filled.map (h : g.Filled) (f : β → γ) : (g.map f).Filled := by
  unfold Filled Grid.map
  rw [List.length_map]
  exact h

/-! ## Building grids -/

theorem filled_replicate (rows cols : Nat) (c : β) : (replicate rows cols c).Filled := List.length_replicate

theorem filled_identity (n : Nat) (zero one : β) : (identity n zero one).Filled := by
  rw [Filled, identity, List.length_map, Shape.length_places]

theorem filled_square? {cells : List β} (hsquare : square? cells = some g) : g.Filled ∧ g.cells = cells := by
  obtain ⟨n, hn, rfl⟩ := Option.map_eq_some_iff.mp hsquare
  have hn := List.find?_some hn
  simp only [Bool.and_eq_true, beq_iff_eq] at hn
  exact ⟨hn.2.symm, rfl⟩

theorem filled_set? {k : Grid β} {c : β} (hg : g.Filled) (hset : g.set? i j c = some k) :
    k.Filled ∧ ∀ x ∈ k.cells, x ∈ g.cells ∨ x = c := by
  unfold set? at hset
  split at hset
  · cases hset
    exact ⟨List.length_set.trans hg, fun x hx => List.mem_or_eq_of_mem_set hx⟩
  · cases hset

theorem filled_ofRows? {rows : List (List β)} (h : ofRows? rows = some g) : g.Filled := by
  cases rows with
  | nil => cases h
  | cons row rows =>
    simp only [ofRows?] at h
    split at h
    · cases h
    · rename_i hlen
      cases h
      obtain ⟨-, hlen⟩ : row.isEmpty = false ∧ ∀ r ∈ rows, r.length = row.length := by simpa using hlen
      show (row :: rows).flatten.length = (rows.length + 1) * row.length
      rw [List.length_flatten, List.map_cons, List.map_congr_left hlen]
      simp [Nat.add_mul, Nat.add_comm]

theorem mem_cells_of_ofRows? {rows : List (List β)} {c : β} (h : ofRows? rows = some g) (hc : c ∈ g.cells) :
    ∃ row ∈ rows, c ∈ row := by
  cases rows with
  | nil => cases h
  | cons row rows =>
    simp only [ofRows?] at h
    split at h
    · cases h
    · cases h
      exact List.mem_flatten.mp hc

/-! ## Rows -/

theorem getElem?_row (g : Grid β) (i k : Nat) : (g.row i)[k]? = g.get? i k := by
  unfold row
  by_cases hi : i < g.rows
  · by_cases hk : k < g.cols
    · rw [if_pos hi, get?_of_lt hi hk, List.getElem?_take_of_lt hk, List.getElem?_drop]
    · rw [if_pos hi, get?_eq_none (fun h => hk h.2), List.getElem?_eq_none]
      have := List.length_take_le g.cols (g.cells.drop (i * g.cols))
      omega
  · rw [if_neg hi, get?_eq_none (fun h => hi h.1), List.getElem?_nil]

theorem Filled.length_row (h : g.Filled) (hi : i < g.rows) : (g.row i).length = g.cols := by
  have hle : i * g.cols + g.cols ≤ g.rows * g.cols := by
    rw [← Nat.succ_mul]
    exact Nat.mul_le_mul_right g.cols hi
  rw [row, if_pos hi, List.length_take, List.length_drop, h]
  omega

/-- The rows one after the other are all the cells. -/
theorem Filled.flatMap_row (h : g.Filled) : (List.range g.rows).flatMap g.row = g.cells := by
  obtain ⟨r, c, xs⟩ := g
  induction r generalizing xs with
  | zero =>
    have hnil : xs = [] := List.length_eq_zero_iff.mp (by simpa [Filled] using h)
    simp [hnil]
  | succ r ih =>
    have hlength : xs.length = r * c + c := by simpa [Filled, Nat.succ_mul] using h
    have hbelow : (List.range r).flatMap (row ⟨r, c, xs.drop c⟩) = xs.drop c := by
      refine ih (xs.drop c) ?_
      show (xs.drop c).length = r * c
      rw [List.length_drop]
      omega
    have hfirst : row ⟨r + 1, c, xs⟩ 0 = xs.take c := by simp [row]
    have hrest (i : Nat) : row ⟨r + 1, c, xs⟩ (i + 1) = row ⟨r, c, xs.drop c⟩ i := by
      simp [row, Nat.succ_mul, Nat.add_comm]
    show (List.range (r + 1)).flatMap _ = xs
    rw [List.range_succ_eq_map, List.flatMap_cons, List.flatMap_map, hfirst]
    simp only [Nat.succ_eq_add_one, hrest]
    rw [hbelow, List.take_append_drop]

/-! ## The transposed grid -/

theorem getElem?_filterMap {f : β → Option γ} {xs : List β} (h : ∀ x ∈ xs, (f x).isSome = true) (n : Nat) :
    (xs.filterMap f)[n]? = xs[n]?.bind f := by
  induction xs generalizing n with
  | nil => simp
  | cons x xs ih =>
    obtain ⟨hx, hxs⟩ := List.forall_mem_cons.mp h
    obtain ⟨y, hy⟩ := Option.isSome_iff_exists.mp hx
    cases n with
    | zero => simp [hy]
    | succ n => simpa [List.filterMap_cons, hy] using ih hxs n

theorem length_filterMap {f : β → Option γ} {xs : List β} (h : ∀ x ∈ xs, (f x).isSome = true) :
    (xs.filterMap f).length = xs.length := by
  induction xs with
  | nil => rfl
  | cons x xs ih =>
    obtain ⟨hx, hxs⟩ := List.forall_mem_cons.mp h
    obtain ⟨y, hy⟩ := Option.isSome_iff_exists.mp hx
    rw [List.filterMap_cons_some hy, List.length_cons, List.length_cons, ih hxs]

/-- There is a cell for every place of the transposed grid. -/
theorem Filled.transpose_isSome (h : g.Filled) :
    ∀ p ∈ Shape.places ⟨g.cols, g.rows⟩, (g.cells.toArray[p.2 * g.cols + p.1]?).isSome = true := by
  intro p hp
  obtain ⟨h1, h2⟩ := mem_places hp
  have hcell := h.isSome h2 h1
  rw [get?_of_lt h2 h1] at hcell
  rwa [List.getElem?_toArray]

theorem Filled.transpose (h : g.Filled) : g.transpose.Filled := by
  show (List.filterMap _ _).length = g.cols * g.rows
  rw [length_filterMap h.transpose_isSome, Shape.length_places]

/-- Rows become columns. -/
theorem get?_transpose (h : g.Filled) (i j : Nat) : g.transpose.get? j i = g.get? i j := by
  by_cases hb : i < g.rows ∧ j < g.cols
  · have hplace := getElem?_places ⟨g.cols, g.rows⟩ (i := j) (j := i) hb.2 hb.1
    rw [get?_of_lt hb.1 hb.2, get?_of_lt (g := g.transpose) hb.2 hb.1]
    show (List.filterMap _ _)[j * g.rows + i]? = _
    rw [getElem?_filterMap h.transpose_isSome, hplace]
    simp
  · rw [get?_eq_none hb, get?_eq_none fun h => hb ⟨h.2, h.1⟩]

/-- The cells of a row beside those of a column. -/
theorem row_zip_column {h : Grid γ} {k : Nat} (hg : g.Filled) (hh : h.Filled) (hd : g.cols = h.rows)
    (hi : i < g.rows) (hj : j < h.cols) (hk : k < g.cols) :
    ∃ x y, g.get? i k = some x ∧ h.get? k j = some y ∧ ((g.row i).zip (h.transpose.row j))[k]? = some (x, y) := by
  obtain ⟨x, hx⟩ := Option.isSome_iff_exists.mp (hg.isSome hi hk)
  obtain ⟨y, hy⟩ := Option.isSome_iff_exists.mp (hh.isSome (hd ▸ hk) hj)
  refine ⟨x, y, hx, hy, List.getElem?_zip_eq_some.mpr ⟨?_, ?_⟩⟩
  · rw [getElem?_row, hx]
  · rw [getElem?_row, get?_transpose hh, hy]

theorem length_row_zip_column {h : Grid γ} (hg : g.Filled) (hh : h.Filled) (hd : g.cols = h.rows)
    (hi : i < g.rows) (hj : j < h.cols) : ((g.row i).zip (h.transpose.row j)).length = g.cols := by
  rw [List.length_zip, hg.length_row hi, hh.transpose.length_row (g := h.transpose) hj, hd]
  exact min_self h.rows

end Grid

/-! ## Cutting cells into rows -/

section
variable {β γ : Type} {w r : Nat} {xs : List β}

theorem chunks_of_pos (hw : 0 < w) (hne : xs ≠ []) : chunks w xs = xs.take w :: chunks w (xs.drop w) := by
  obtain ⟨w, rfl⟩ := Nat.exists_eq_succ_of_ne_zero hw.ne'
  cases xs with
  | nil => exact absurd rfl hne
  | cons x xs => rw [chunks]; rfl

theorem chunks_map (f : β → γ) (w : Nat) (xs : List β) : chunks w (xs.map f) = (chunks w xs).map (List.map f) := by
  fun_induction chunks w xs with
  | case1 => simp [chunks]
  | case2 x xs ih => rw [List.map_cons, chunks, ← List.map_drop, ih, ← List.map_take, List.map_cons, List.map_cons]

theorem chunks_forall₂ {R : β → γ → Prop} {ys : List γ} (h : List.Forall₂ R xs ys) :
    List.Forall₂ (List.Forall₂ R) (chunks w xs) (chunks w ys) := by
  fun_induction chunks w xs generalizing ys with
  | case1 =>
    cases h
    rw [chunks]
    exact .nil
  | case2 x xs ih =>
    cases h with
    | cons hx hxs =>
      rw [chunks]
      exact .cons (.cons hx (List.forall₂_take _ hxs)) (ih (List.forall₂_drop _ hxs))

theorem chunks_rows (hw : 0 < w) (h : xs.length = r * w) :
    (chunks w xs).length = r ∧ (chunks w xs).flatten = xs ∧ ∀ row ∈ chunks w xs, row.length = w := by
  induction r generalizing xs with
  | zero =>
    have hnil : xs = [] := List.length_eq_zero_iff.mp (by simpa using h)
    simp [hnil, chunks]
  | succ r ih =>
    rw [Nat.succ_mul] at h
    have hdrop : (xs.drop w).length = r * w := by
      rw [List.length_drop]
      omega
    obtain ⟨hlength, hflatten, hall⟩ := ih hdrop
    rw [chunks_of_pos hw (List.length_pos_iff.mp (by omega))]
    refine ⟨by rw [List.length_cons, hlength], ?_, List.forall_mem_cons.mpr ⟨?_, hall⟩⟩
    · rw [List.flatten_cons, hflatten, List.take_append_drop]
    · rw [List.length_take]
      omega

/-- A filled grid is cut into as many rows as it has, unless it has no cells. -/
theorem Grid.Filled.length_chunks {g : Grid β} (h : g.Filled) : g.cells = [] ∨ (chunks g.cols g.cells).length = g.rows := by
  rcases Nat.eq_zero_or_pos g.cols with hw | hw
  · left
    rw [Grid.Filled, hw, Nat.mul_zero] at h
    exact List.length_eq_zero_iff.mp h
  · exact Or.inr (chunks_rows hw h).1

/-- The rows of a grid make that grid. -/
theorem ofRows?_chunks (hw : 0 < w) (hr : 0 < r) (h : xs.length = r * w) : Grid.ofRows? (chunks w xs) = some ⟨r, w, xs⟩ := by
  obtain ⟨hlength, hflatten, hall⟩ := chunks_rows hw h
  cases hchunks : chunks w xs with
  | nil =>
    rw [hchunks] at hlength
    exact absurd hlength.symm hr.ne'
  | cons first rest =>
    rw [hchunks] at hlength hflatten hall
    obtain ⟨hfirst, hrest⟩ := List.forall_mem_cons.mp hall
    have hne : first ≠ [] := List.length_pos_iff.mp (by omega)
    have hlevel : ¬ (first.isEmpty || rest.any (·.length != first.length)) = true := by
      simp only [Bool.or_eq_true, List.isEmpty_iff, List.any_eq_true, bne_iff_ne, not_or, not_exists, not_and, not_not]
      exact ⟨hne, fun row hrow => by rw [hrest row hrow, hfirst]⟩
    rw [List.length_cons] at hlength
    rw [Grid.ofRows?, if_neg hlevel, hflatten, hfirst, hlength]

end

end SymbolicAlgebra
