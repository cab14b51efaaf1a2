/-
  SymbolicAlgebra.Proofs.Grammar.Lines — lines and columns.

  A character moves a location forward (`Location.past`): a line feed to the front of the next line, any
  other by one column. The location just after a text is where its characters lead from the first column
  of the first line (`locationAfter_eq_foldl`), so every further character comes later in reading order
  (`Location.lt_past`), and a longer text ends later than a shorter one (`locationAfter_lt`).

  Offsets are counted in bytes and columns in characters. That does not matter for the order, because an
  offset between two characters determines the text before it. The main result is
  `location_identifies`: lines and columns are in the order of the offsets, no two offsets share them, and
  they count what stands before an offset.
-/

import SymbolicAlgebra.Proofs.Grammar.Places

namespace SymbolicAlgebra

namespace Location

/-- Reading order: on an earlier line, or further to the left on the same line. -/
instance : LT Location := ⟨fun l m => l.line < m.line ∨ l.line = m.line ∧ l.column < m.column⟩

theorem lt_def {l m : Location} : l < m ↔ l.line < m.line ∨ l.line = m.line ∧ l.column < m.column := Iff.rfl

theorem lt_trans {l m k : Location} (h : l < m) (h' : m < k) : l < k := by
  rw [lt_def] at h h' ⊢
  omega

theorem lt_irrefl (l : Location) : ¬ l < l := by
  rw [lt_def]
  omega

/-- The location behind a character. -/
def past (l : Location) (c : Char) : Location := if c = '\n' then ⟨l.line + 1, 1⟩ else ⟨l.line, l.column + 1⟩

theorem lt_past (l : Location) (c : Char) : l < l.past c := by
  unfold past
  split
  · exact Or.inl (Nat.lt_succ_self _)
  · exact Or.inr ⟨rfl, Nat.lt_succ_self _⟩

end Location

namespace Source

/-! ## Character by character -/

theorem locationAfter_concat (cs : List Char) (c : Char) : locationAfter (cs ++ [c]) = (locationAfter cs).past c := by
  unfold locationAfter Location.past
  by_cases hc : c = '\n'
  · simp [hc]
  · simp [hc]

theorem locationAfter_eq_foldl (cs : List Char) : locationAfter cs = cs.foldl Location.past ⟨1, 1⟩ := by
  induction cs using List.reverseRecOn with
  | nil => rfl
  | append_singleton cs c ih => rw [locationAfter_concat, ih, List.foldl_concat]

/-- A text that goes on ends later. -/
theorem locationAfter_lt (cs : List Char) {ds : List Char} (h : ds ≠ []) : locationAfter cs < locationAfter (cs ++ ds) := by
  induction ds using List.reverseRecOn with
  | nil => exact absurd rfl h
  | append_singleton ds d ih =>
    rw [← List.append_assoc, locationAfter_concat]
    by_cases hds : ds = []
    · rw [hds, List.append_nil]
      exact Location.lt_past _ d
    · exact Location.lt_trans (ih hds) (Location.lt_past _ d)

/-! ## What lines and columns count -/

/-- The text ends on the line and before the column of `l`: it holds a line feed for every line before,
    and after the last of them a character for every column before. -/
structure EndsAt (text : List Char) (l : Location) : Prop where
  line : text.count '\n' + 1 = l.line
  column : ∃ lines rest, text = lines ++ rest ∧ (lines = [] ∨ lines.getLast? = some '\n') ∧ '\n' ∉ rest ∧
    rest.length + 1 = l.column

theorem endsAt_nil : EndsAt [] ⟨1, 1⟩ := ⟨rfl, [], [], rfl, Or.inl rfl, List.not_mem_nil, rfl⟩

theorem EndsAt.past {text : List Char} {l : Location} (h : EndsAt text l) (c : Char) :
    EndsAt (text ++ [c]) (l.past c) := by
  obtain ⟨lines, rest, rfl, hlines, hrest, hcolumn⟩ := h.column
  have hline := h.line
  unfold Location.past
  by_cases hc : c = '\n'
  · subst hc
    rw [if_pos rfl]
    refine ⟨?_, lines ++ rest ++ ['\n'], [], by simp, Or.inr (by simp), List.not_mem_nil, rfl⟩
    rw [List.count_append, List.count_singleton_self, hline]
  · have hfeed : '\n' ∉ [c] := by simpa using Ne.symm hc
    rw [if_neg hc]
    refine ⟨?_, lines, rest ++ [c], by simp, hlines, ?_, ?_⟩
    · rw [List.count_append, List.count_eq_zero_of_not_mem hfeed, Nat.add_zero, hline]
    · exact fun h => (List.mem_append.mp h).elim hrest hfeed
    · rw [List.length_append, List.length_singleton, hcolumn]

theorem endsAt_locationAfter (text : List Char) : EndsAt text (locationAfter text) := by
  rw [locationAfter_eq_foldl]
  induction text using List.reverseRecOn with
  | nil => exact endsAt_nil
  | append_singleton text c ih =>
    rw [List.foldl_concat]
    exact ih.past c

/-- What comes after the last line feed begins in one place only. -/
theorem length_rest_unique {lines rest lines' rest' : List Char} (h : lines ++ rest = lines' ++ rest')
    (hlines : lines = [] ∨ lines.getLast? = some '\n') (hrest : '\n' ∉ rest)
    (hlines' : lines' = [] ∨ lines'.getLast? = some '\n') (hrest' : '\n' ∉ rest') : rest.length = rest'.length := by
  -- A list that ends with a line feed cannot reach into one that has none.
  have reach {xs ys zs : List Char} (hxs : xs ++ ys = [] ∨ (xs ++ ys).getLast? = some '\n') (hys : '\n' ∉ ys ++ zs) :
      ys = [] := by
    by_contra hne
    rcases hxs with hxs | hxs
    · exact hne (List.append_eq_nil_iff.mp hxs).2
    · rw [List.getLast?_append_of_ne_nil _ hne] at hxs
      exact hys (List.mem_append_left _ (List.mem_of_getLast? hxs))
  rcases List.append_eq_append_iff.mp h with ⟨ds, rfl, rfl⟩ | ⟨ds, rfl, rfl⟩
  · rw [reach hlines' hrest, List.nil_append]
  · rw [reach hlines hrest', List.nil_append]

theorem EndsAt.unique {text : List Char} {l m : Location} (h : EndsAt text l) (h' : EndsAt text m) : l = m := by
  obtain ⟨lines, rest, rfl, hlines, hrest, hcolumn⟩ := h.column
  obtain ⟨lines', rest', htext, hlines', hrest', hcolumn'⟩ := h'.column
  have hlength := length_rest_unique htext hlines hrest hlines' hrest'
  have hline : l.line = m.line := h.line.symm.trans h'.line
  have hcol : l.column = m.column := by omega
  cases l
  cases m
  simp_all

theorem locationAfter_eq_iff {text : List Char} {l : Location} : locationAfter text = l ↔ EndsAt text l := by
  constructor
  · rintro rfl
    exact endsAt_locationAfter text
  · exact (endsAt_locationAfter text).unique

/-! ## Offsets -/

/-- The location of a later offset is later. -/
theorem location_lt {source : String} {i j : String.Pos.Raw} (hi : i.IsValid source) (hj : j.IsValid source) (h : i < j) :
    location source i.byteIdx < location source j.byteIdx := by
  obtain ⟨before, after, rfl, rfl⟩ := String.Pos.Raw.isValid_iff_exists_append.mp hi
  obtain ⟨before', after', hsource, rfl⟩ := String.Pos.Raw.isValid_iff_exists_append.mp hj
  have hbytes : before.utf8ByteSize < before'.utf8ByteSize := h
  have hlists := congrArg String.toList hsource
  rw [String.toList_append, String.toList_append] at hlists
  -- The text before the later offset goes on where that before the earlier one ends.
  obtain ⟨middle, hmiddle⟩ : ∃ middle, before'.toList = before.toList ++ middle := by
    rcases List.append_eq_append_iff.mp hlists with ⟨middle, hmiddle, -⟩ | ⟨middle, hmiddle, -⟩
    · exact ⟨middle, hmiddle⟩
    · rw [← byteLength_toList, ← byteLength_toList, hmiddle, byteLength_append] at hbytes
      omega
  have hne : middle ≠ [] := by
    rintro rfl
    rw [← byteLength_toList, ← byteLength_toList, hmiddle, List.append_nil] at hbytes
    exact Nat.lt_irrefl _ hbytes
  show location (before ++ after) before.utf8ByteSize < location (before ++ after) before'.utf8ByteSize
  rw [location_append, hsource, location_append, hmiddle]
  exact locationAfter_lt before.toList hne

/-- Lines and columns tell the offsets between two characters of a source apart, in their order. They
    count what stands before the offset: the lines that are complete, and the characters of the line that
    is not. -/
theorem location_identifies (source : String) :
    (∀ i j : String.Pos.Raw, i.IsValid source → j.IsValid source → i < j →
        location source i.byteIdx < location source j.byteIdx) ∧
      (∀ i j : String.Pos.Raw, i.IsValid source → j.IsValid source →
        location source i.byteIdx = location source j.byteIdx → i = j) ∧
      ∀ i : String.Pos.Raw, i.IsValid source → ∃ before after : String, source = before ++ after ∧
        i = before.rawEndPos ∧ ∀ l, location source i.byteIdx = l ↔ EndsAt before.toList l := by
  refine ⟨fun i j hi hj h => location_lt hi hj h, ?_, ?_⟩
  · intro i j hi hj heq
    rcases Nat.lt_trichotomy i.byteIdx j.byteIdx with h | h | h
    · exact absurd (heq ▸ location_lt hi hj h) (Location.lt_irrefl _)
    · exact String.Pos.Raw.ext h
    · exact absurd (heq ▸ location_lt hj hi h) (Location.lt_irrefl _)
  · intro i hi
    obtain ⟨before, after, rfl, rfl⟩ := String.Pos.Raw.isValid_iff_exists_append.mp hi
    refine ⟨before, after, rfl, rfl, fun l => ?_⟩
    show location (before ++ after) before.utf8ByteSize = l ↔ EndsAt before.toList l
    rw [location_append]
    exact locationAfter_eq_iff

/-- The first character takes two bytes and the second ends the line: three bytes in, a line has ended and
    the next has not begun. -/
theorem location_identifies_line :
    let source := "é\nx"
    let i : String.Pos.Raw := ⟨2⟩
    let j : String.Pos.Raw := ⟨3⟩
    (i.IsValid source ∧ j.IsValid source ∧ i < j) ∧ location source 2 = ⟨1, 2⟩ ∧ location source 3 = ⟨2, 1⟩ ∧
      location source 2 < location source 3 := by
  intro source i j
  have hi : i.IsValid source := by decide
  have hj : j.IsValid source := by decide
  have hlt : i < j := by decide
  exact ⟨⟨hi, hj, hlt⟩, by cbv, by cbv, (location_identifies source).1 i j hi hj hlt⟩

end Source

end SymbolicAlgebra
