/-
  SymbolicAlgebra.Proofs.Grammar.Places — where the tokens of a source stand.

  A span points at a text that stands between characters of the source (`Source.Slice`). The scanner cuts
  a text from its front to its end into longest tokens, each beginning where the one before it ends
  (`Token.Cuts`), and there is no other way to cut it (`Cuts.unique`). So nothing is lost
  (`scan_longest`), and a piece of the text that begins and ends between tokens is cut in the same places
  when it stands alone (`Cuts.split`, `Cuts.shift`).
-/

import SymbolicAlgebra.Proofs.Grammar.Patterns

namespace SymbolicAlgebra

/-! ## Bytes -/

namespace Source

/-- The text stands in the source at the span, with whole characters before and after it. -/
def Slice (source : String) (s : Span) (text : String) : Prop :=
  ∃ before after, source = before ++ text ++ after ∧
    s = ⟨before.utf8ByteSize, before.utf8ByteSize + text.utf8ByteSize⟩

/-- Both ends are in the source, in their order. -/
theorem Slice.bounds {source text : String} {s : Span} (h : Slice source s text) :
    s.start ≤ s.stop ∧ s.stop ≤ source.utf8ByteSize := by
  obtain ⟨before, after, rfl, rfl⟩ := h
  simp

theorem byteLength_append (cs ds : List Char) : byteLength (cs ++ ds) = byteLength cs + byteLength ds := by
  induction cs with
  | nil => simp [byteLength]
  | cons c cs ih => rw [List.cons_append, byteLength, byteLength, ih, Nat.add_assoc]

theorem byteLength_toList (s : String) : byteLength s.toList = s.utf8ByteSize := by
  have hlist (cs : List Char) : byteLength cs = String.utf8Len cs := by
    induction cs with
    | nil => rfl
    | cons c cs ih => simp [byteLength, ih, Nat.add_comm]
  rw [hlist, ← String.utf8ByteSize_ofList, String.ofList_toList]

/-- The characters of the first bytes, where they end between two characters. -/
theorem before?_append (cs ds : List Char) : before? (cs ++ ds) (byteLength cs) = some cs := by
  induction cs with
  | nil => cases ds <;> simp [before?, byteLength]
  | cons c cs ih =>
    have hpos := c.utf8Size_pos
    rw [byteLength, List.cons_append, before?, if_neg (by omega), if_pos (by omega), Nat.add_sub_cancel_left, ih]
    rfl

/-- The line and column of an offset between two characters are those after the text before it. -/
theorem location_append (before after : String) :
    location (before ++ after) before.utf8ByteSize = locationAfter before.toList := by
  rw [location, String.toList_append, ← byteLength_toList, before?_append]
  rfl

end Source

/-- The span after that many more bytes. -/
def Span.shift (n : Nat) (s : Span) : Span := ⟨n + s.start, n + s.stop⟩

/-- The token after that many more bytes. -/
def Token.shift (n : Nat) (t : Token) : Token := { t with span := t.span.shift n }

@[simp] theorem Token.kind_shift (n : Nat) (t : Token) : (t.shift n).kind = t.kind := rfl

@[simp] theorem Token.word_shift (n : Nat) (t : Token) : (t.shift n).word = t.word := rfl

/-! ## Cuts -/

namespace Token

/-- A text that begins at byte `start`, cut into longest tokens. -/
inductive Cuts : Nat → List Char → List Token → Prop
  | nil {start : Nat} : Cuts start [] []
  | cons {start : Nat} {kind : TokenKind} {cs text rest : List Char} {ts : List Token} (hcs : cs = text ++ rest)
      (hlongest : Longest cs kind text) (hrest : Cuts (start + Source.byteLength text) rest ts) :
      Cuts start cs (⟨kind, ⟨start, start + Source.byteLength text⟩, String.ofList text⟩ :: ts)

theorem cuts_scanFrom (start : Nat) (cs : List Char) : Cuts start cs (scanFrom start cs) := by
  fun_induction scanFrom start cs with
  | case1 => exact .nil
  | case2 start c cs kind more text stop ih =>
    have hcs : c :: cs = text ++ cs.drop more := by rw [List.cons_append, List.take_append_drop]
    exact .cons hcs (first_is_longest c cs) ih

namespace Cuts

variable {start : Nat} {cs : List Char} {ts us : List Token}

theorem unique (h : Cuts start cs ts) (h' : Cuts start cs us) : ts = us := by
  induction h generalizing us with
  | nil =>
    cases h' with
    | nil => rfl
    | cons hcs hlongest =>
      obtain ⟨hnil, -⟩ := List.nil_eq_append_iff.mp hcs
      exact absurd hnil (ne_nil_of_matched hlongest.matched)
  | cons hcs hlongest _ ih =>
    cases h' with
    | nil =>
      obtain ⟨hnil, -⟩ := List.nil_eq_append_iff.mp hcs
      exact absurd hnil (ne_nil_of_matched hlongest.matched)
    | cons hcs' hlongest' hrest' =>
      obtain ⟨rfl, rfl⟩ := hlongest.unique hlongest'
      obtain rfl := List.append_cancel_left (hcs.symm.trans hcs')
      rw [ih hrest']

/-- Nothing is lost. -/
theorem join_lexemes (h : Cuts start cs ts) : String.join (ts.map lexeme) = String.ofList cs := by
  induction h with
  | nil => rfl
  | cons hcs _ _ ih => rw [List.map_cons, String.join_cons, ih, hcs, String.ofList_append]

/-- A text that ends between two of its tokens is cut in the same places. -/
theorem split (h : Cuts start cs (ts ++ us)) : ∃ ds es, cs = ds ++ es ∧ Cuts start ds ts ∧
    Cuts (start + Source.byteLength ds) es us := by
  induction ts generalizing start cs with
  | nil => exact ⟨[], cs, rfl, .nil, h⟩
  | cons t ts ih =>
    rw [List.cons_append] at h
    cases h with
    | @cons _ kind _ text rest _ hcs hlongest hrest =>
      obtain ⟨ds, es, rfl, hds, hes⟩ := ih hrest
      have hmore : text ++ ds <+: cs := ⟨es, by rw [hcs, List.append_assoc]⟩
      refine ⟨text ++ ds, es, by rw [hcs, List.append_assoc], ?_, ?_⟩
      · exact .cons rfl (hlongest.shorten (List.prefix_append _ _) hmore) hds
      · rwa [Source.byteLength_append, ← Nat.add_assoc]

/-- Where the text begins does not matter. -/
theorem shift (n : Nat) (h : Cuts start cs ts) : Cuts (n + start) cs (ts.map (Token.shift n)) := by
  induction h with
  | nil => exact .nil
  | @cons start kind cs text rest ts hcs hlongest _ ih =>
    rw [← Nat.add_assoc] at ih
    rw [List.map_cons, Token.shift, Span.shift, ← Nat.add_assoc]
    exact .cons hcs hlongest ih

/-- Tokens side by side are those of the text between them. -/
theorem piece {middle : List Token} (h : Cuts start cs ts) (hmiddle : middle <:+: ts) :
    ∃ before text after, cs = before ++ text ++ after ∧ Cuts (start + Source.byteLength before) text middle := by
  obtain ⟨ts₁, ts₂, rfl⟩ := hmiddle
  obtain ⟨ds, after, rfl, hds, -⟩ := h.split
  obtain ⟨before, text, rfl, -, htext⟩ := hds.split
  exact ⟨before, text, after, rfl, htext⟩

/-- Each token begins where the one before it ends, the first at the start and the last up to the end. -/
theorem contiguous (h : Cuts start cs ts) : ts.IsChain (fun t u => t.span.stop = u.span.start) ∧
    (∀ t, ts.head? = some t → t.span.start = start) ∧
    ∀ t, ts.getLast? = some t → t.span.stop = start + Source.byteLength cs := by
  induction h with
  | nil => simp
  | @cons start kind cs text rest ts hcs _ hrest ih =>
    obtain ⟨hchain, hhead, hlast⟩ := ih
    refine ⟨List.isChain_cons.mpr ⟨fun u hu => (hhead u hu).symm, hchain⟩, ?_, ?_⟩
    · rintro t ⟨⟩
      rfl
    · intro t ht
      rw [hcs, Source.byteLength_append, ← Nat.add_assoc]
      cases ts with
      | nil =>
        cases ht
        cases hrest
        rfl
      | cons u us => exact hlast t (by rwa [List.getLast?_cons_cons] at ht)

end Cuts

/-- Tokens of a source side by side are those of the text from the first to the last. -/
theorem slice_of_piece {source : String} {piece : List Token} {first last : Token} (h : piece <:+: scan source)
    (hfirst : piece.head? = some first) (hlast : piece.getLast? = some last) :
    ∃ text, Source.Slice source ⟨first.span.start, last.span.stop⟩ text ∧ piece = (scan text).map (shift first.span.start) := by
  have hcuts : Cuts 0 source.toList (scan source) := cuts_scanFrom 0 source.toList
  obtain ⟨before, text, after, hsource, htext⟩ := hcuts.piece h
  obtain ⟨-, hstart, hstop⟩ := htext.contiguous
  rw [hstart first hfirst, hstop last hlast, Nat.zero_add]
  refine ⟨String.ofList text, ⟨String.ofList before, String.ofList after, ?_, ?_⟩, ?_⟩
  · rw [← String.ofList_append, ← String.ofList_append, ← hsource, String.ofList_toList]
  · simp [← Source.byteLength_toList]
  · have hscan : Cuts 0 text (scan (String.ofList text)) := by
      rw [scan, String.toList_ofList]
      exact cuts_scanFrom 0 text
    rw [Nat.zero_add] at htext
    exact htext.unique (hscan.shift (Source.byteLength before))

/-- The scanner takes the tokens of a source apart without a loss or a gap, and takes each as long as the
    patterns allow. -/
theorem scan_longest (source : String) :
    String.join ((scan source).map lexeme) = source ∧
      (scan source).IsChain (fun t u => t.span.stop = u.span.start) ∧
      (∀ t, (scan source).head? = some t → t.span.start = 0) ∧
      (∀ t, (scan source).getLast? = some t → t.span.stop = source.utf8ByteSize) ∧
      ∀ before t after, scan source = before ++ t :: after →
        t.lexeme ≠ "" ∧ Source.Slice source t.span t.lexeme ∧
          Longest (String.join ((t :: after).map lexeme)).toList t.kind t.lexeme.toList := by
  have hcuts : Cuts 0 source.toList (scan source) := cuts_scanFrom 0 source.toList
  obtain ⟨hchain, hhead, hlast⟩ := hcuts.contiguous
  refine ⟨?_, hchain, hhead, ?_, ?_⟩
  · rw [hcuts.join_lexemes, String.ofList_toList]
  · intro t ht
    rw [hlast t ht, Nat.zero_add, Source.byteLength_toList]
  · intro before t after hscan
    rw [hscan] at hcuts
    obtain ⟨ds, es, hsource, -, hes⟩ := hcuts.split
    rw [hes.join_lexemes, String.toList_ofList]
    cases hes with
    | @cons _ kind _ text rest _ hcs hlongest _ =>
      refine ⟨?_, ⟨String.ofList ds, String.ofList rest, ?_, ?_⟩, ?_⟩
      · show String.ofList text ≠ ""
        exact fun h => ne_nil_of_matched hlongest.matched (String.ofList_eq_empty_iff.mp h)
      · show source = String.ofList ds ++ String.ofList text ++ String.ofList rest
        rw [← String.ofList_append, ← String.ofList_append, List.append_assoc, ← hcs, ← hsource, String.ofList_toList]
      · simp [← Source.byteLength_toList]
      · show Longest es kind (String.ofList text).toList
        rwa [String.toList_ofList]

end Token

end SymbolicAlgebra
