/-
  SymbolicAlgebra.Proofs.Isolation — what a definition comes to depends on what it reaches only.

  Seen from the names, the pass that puts definitions into one another is a fold of turns over the
  values that they have (`resolve_valueOf`). Take the names that a definition reaches. The turn of any
  other name leaves their values alone (`turn_outside`), and the turn of one of them depends on their
  values only (`turn_congr`); and since the turns come in the order of the names, two programs that
  share the definitions of these names give them the same turns in the same order. So both programs
  come to the same values (`resolve_isolated`), whatever else they define.
-/

import SymbolicAlgebra.Proofs.Dependencies
import SymbolicAlgebra.Proofs.Grammar.Acceptance

namespace SymbolicAlgebra

/-! ## Texts one after the other -/

/-- The words of complete texts one after the other. -/
theorem Source.words_join {ts : List String} (h : ∀ t ∈ ts, Token.Complete (Source.words t)) :
    Source.words (String.join ts) = ts.flatMap Source.words := by
  have hwords : ∀ t : String, Source.words t = Token.textWords t.toList := fun _ => rfl
  induction ts with
  | nil => exact Token.textWords_nil
  | cons t ts ih =>
    obtain ⟨ht, hts⟩ := List.forall_mem_cons.mp h
    rw [hwords] at ht
    rw [List.flatMap_cons, ← ih hts, hwords, hwords, hwords, ← Token.textWords_append ht]
    simp

theorem Statement.complete_words (s : Statement) : Token.Complete s.words := by
  intro w hw
  rw [Statement.words, ← List.cons_append, ← List.cons_append, List.getLast?_append] at hw
  cases hw
  rfl

namespace Program

open Relation

variable {α : Type} [Scalar α]

/-- A text that is one definition. -/
theorem spell_of_single {t : String} {d : Definition α} (h : written t = .ok [d]) :
    ∃ s, Statement.Spell [s] t ∧ d.name = s.name ∧ s.body.expr? = some d.value := by
  obtain ⟨ss, hss⟩ := spell_of_written h
  obtain ⟨s, ss, hs, hnil, rfl⟩ := List.forall₂_cons_right_iff.mp (written_of_spell hss h)
  cases hnil
  exact ⟨s, hss, hs⟩

/-- Texts of one definition each, one after the other, are these definitions. -/
theorem written_join {ts : List String} {ds : List (Definition α)} (hts : ∀ t ∈ ts, ∃ d : Definition α, written t = .ok [d])
    (h : written (String.join ts) = .ok ds) :
    List.Forall₂ (fun t d => ∃ d', written t = .ok [d'] ∧ d'.name = d.name ∧ d'.value = d.value) ts ds := by
  -- Each text has a tree of its own, and together these are the trees of the source.
  obtain ⟨ss, hss⟩ : ∃ ss, List.Forall₂ (fun t s => ∃ d' : Definition α, written t = .ok [d'] ∧ Statement.Spell [s] t ∧
      d'.name = s.name ∧ s.body.expr? = some d'.value) ts ss := by
    clear h
    induction ts with
    | nil => exact ⟨[], .nil⟩
    | cons t ts ih =>
      obtain ⟨⟨d', hd'⟩, hts⟩ := List.forall_mem_cons.mp hts
      obtain ⟨s, hs, hread⟩ := spell_of_single hd'
      obtain ⟨ss, hss⟩ := ih hts
      exact ⟨s :: ss, .cons ⟨d', hd', hs, hread⟩ hss⟩
  have hspell : Statement.Spell ss (String.join ts) := by
    have hwords : ts.map Source.words = ss.map Statement.words := (map_eq_map hss fun t s h => by
      obtain ⟨-, -, hs, -⟩ := h
      simpa using hs.1.symm).symm
    refine ⟨?_, forall_mem_right hss fun t _ s h => ?_⟩
    · rw [Source.words_join, List.flatMap_def, List.flatMap_def, hwords]
      intro t ht
      have hmem : Source.words t ∈ ss.map Statement.words := hwords ▸ List.mem_map_of_mem ht
      obtain ⟨s, -, hs⟩ := List.mem_map.mp hmem
      exact hs ▸ s.complete_words
    · obtain ⟨-, -, hs, -⟩ := h
      exact hs.2 s (List.mem_singleton.mpr rfl)
  refine (forall₂_comp hss (written_of_spell hspell h)).imp ?_
  rintro t d ⟨s, ⟨d', hd', -, hname', hvalue'⟩, hname, hvalue⟩
  rw [hvalue] at hvalue'
  exact ⟨d', hd', by rw [hname, hname'], (Option.some.inj hvalue').symm⟩

/-- The definition of one of the texts is among those of the source. -/
theorem exists_of_text {ts : List String} {ds : List (Definition α)} {t : String} {d : Definition α}
    (hts : ∀ t ∈ ts, ∃ d : Definition α, written t = .ok [d]) (h : written (String.join ts) = .ok ds) (ht : t ∈ ts)
    (hd : written t = .ok [d]) : ∃ e ∈ ds, e.name = d.name ∧ e.value = d.value := by
  refine forall_mem_right (Q := fun t => ∀ d, written t = .ok [d] → ∃ e ∈ ds, e.name = d.name ∧ e.value = d.value)
    (written_join hts h).flip ?_ t ht d hd
  rintro e he t ⟨d, hd, hname, hvalue⟩ d' hd'
  rw [hd] at hd'
  cases hd'
  exact ⟨e, he, hname.symm, hvalue.symm⟩

/-! ## The values of the names -/

/-- The value of a name among the definitions. -/
def valueOf (ds : List (Definition α)) (name : String) : Option (Expr α) :=
  (ds.find? (·.name == name)).map (·.value)

/-- What the turn of `name` makes of the value of `target`. -/
def turn (σ : String → Option (Expr α)) (name target : String) : Option (Expr α) :=
  match σ name, σ target with
  | some value, some v => if target ≠ name ∧ name ∈ v.freeNames then (v.substitute name value).toOption else some v
  | _, v => v

theorem eliminate_valueOf {ds es : List (Definition α)} {name : String} (hname : name ∈ ds.map (·.name))
    (h : (eliminate ds name).result = .ok es) : valueOf es = turn (valueOf ds) name := by
  obtain ⟨source, hs, hsource, hes⟩ := eliminate_eq_ok hname h
  have hvalue : valueOf ds name = some source.value := by rw [valueOf, hs, Option.map_some]
  funext target
  rcases find?_of_forall₂ hes (fun d e he => (substituteInto_eq_ok he).1) target with ⟨hd, he⟩ | ⟨d, e, hd, he, hde⟩
  · simp [turn, valueOf, hd, he]
  · have htarget : d.name = target := by simpa using List.find?_some hd
    have hd : valueOf ds target = some d.value := by rw [valueOf, hd, Option.map_some]
    have he : valueOf es target = some e.value := by rw [valueOf, he, Option.map_some]
    rw [he, turn, hvalue, hd]
    obtain ⟨-, hcase⟩ := substituteInto_eq_ok hde
    rw [hsource, htarget] at hcase
    rcases hcase with ⟨hv, hk⟩ | ⟨hne, hmem, hv⟩
    · have hno : ¬ (target ≠ name ∧ name ∈ d.value.freeNames) := fun h => hk.elim h.1 (absurd h.2)
      rw [hv]
      exact (if_neg hno).symm
    · rw [← toOption_eq_some.mpr hv]
      exact (if_pos ⟨hne, hmem⟩).symm

/-- The pass is a fold of turns, one for each name. -/
theorem resolve_valueOf {ds es : List (Definition α)} (h : (resolve ds).result = .ok es) :
    valueOf es = (ds.map (·.name)).foldl turn (valueOf ds) := by
  unfold resolve at h
  rw [Logged.result_foldlM] at h
  refine (foldlM_induction (P := fun done es => es.map (·.name) = ds.map (·.name) ∧
    valueOf es = done.foldl turn (valueOf ds)) h ⟨rfl, rfl⟩ ?_).2
  rintro done name es es' hname ⟨hnames, hvalues⟩ h
  obtain ⟨source, -, -, hes⟩ := eliminate_eq_ok (by rwa [hnames]) h
  constructor
  · rw [← hnames]
    exact map_eq_map hes fun d e he => (substituteInto_eq_ok he).1
  · rw [eliminate_valueOf (by rwa [hnames]) h, hvalues, List.foldl_append]
    rfl

/-! ## Turns inside and outside of a set of names -/

/-- What the values of the names in `R` mention of `names` is in `R` again. -/
def ClosedIn (names : List String) (R : String → Prop) (σ : String → Option (Expr α)) : Prop :=
  ∀ n, R n → ∀ v, σ n = some v → ∀ x ∈ v.freeNames, x ∈ names → R x

section
variable {names : List String} {R : String → Prop} {σ τ : String → Option (Expr α)} {name target : String}

/-- A name outside of the set is not mentioned inside. -/
theorem turn_outside (h : ClosedIn names R σ) (hmem : name ∈ names) (hname : ¬ R name) (htarget : R target) :
    turn σ name target = σ target := by
  unfold turn
  split
  · rename_i value v hvalue hv
    rw [if_neg fun hc => hname (h target htarget v hv name hc.2 hmem), hv]
  · rfl

theorem turn_congr (h : ∀ n, R n → σ n = τ n) (hname : R name) (htarget : R target) :
    turn σ name target = turn τ name target := by
  simp only [turn, h name hname, h target htarget]

theorem ClosedIn.turn (h : ClosedIn names R σ) (hmem : name ∈ names) : ClosedIn names R (turn σ name) := by
  intro n hn v' hv' x hx hxmem
  unfold Program.turn at hv'
  split at hv'
  · rename_i value v hvalue hv
    split at hv'
    · rename_i hc
      rcases Expr.freeNames_substitute (toOption_eq_some.mp hv') hx with ⟨hx, -⟩ | hx
      · exact h n hn v hv x hx hxmem
      · exact h name (h n hn v hv name hc.2 hmem) value hvalue x hx hxmem
    · cases hv'
      exact h n hn _ hv x hx hxmem
  · exact h n hn v' hv' x hx hxmem

open Classical in
/-- Only the turns of the names in the set count for their values. -/
theorem foldl_turn_filter {ns : List String} (h : ClosedIn names R σ) (hns : ∀ n ∈ ns, n ∈ names)
    (hστ : ∀ n, R n → σ n = τ n) : ∀ n, R n → ns.foldl turn σ n = (ns.filter (R ·)).foldl turn τ n := by
  induction ns generalizing σ τ with
  | nil => exact hστ
  | cons m ns ih =>
    obtain ⟨hm, hns⟩ := List.forall_mem_cons.mp hns
    by_cases hR : R m
    · rw [List.filter_cons_of_pos (by simpa using hR), List.foldl_cons, List.foldl_cons]
      exact ih (h.turn hm) hns fun n hn => turn_congr hστ hR hn
    · rw [List.filter_cons_of_neg (by simpa using hR), List.foldl_cons]
      exact ih (h.turn hm) hns fun n hn => by rw [turn_outside h hm hR hn, hστ n hn]

end

/-! ## The order of the turns -/

section
omit [Scalar α]

theorem insertByName_sorted {d : Definition α} {ds : List (Definition α)} (h : (ds.map (·.name)).Pairwise (· ≤ ·)) :
    ((insertByName d ds).map (·.name)).Pairwise (· ≤ ·) := by
  induction ds with
  | nil => simp [insertByName]
  | cons e ds ih =>
    rw [List.map_cons, List.pairwise_cons] at h
    obtain ⟨he, hds⟩ := h
    unfold insertByName
    split
    · rename_i hlt
      rw [List.map_cons, List.map_cons, List.pairwise_cons, List.pairwise_cons]
      refine ⟨List.forall_mem_cons.mpr ⟨hlt.le, fun x hx => hlt.le.trans (he x hx)⟩, he, hds⟩
    · rename_i hlt
      rw [List.map_cons, List.pairwise_cons]
      refine ⟨fun x hx => ?_, ih hds⟩
      rw [((insertByName_perm d ds).map _).mem_iff, List.map_cons, List.mem_cons] at hx
      rcases hx with rfl | hx
      · exact not_lt.mp hlt
      · exact he x hx

theorem sortByName_sorted (ds : List (Definition α)) : ((sortByName ds).map (·.name)).Pairwise (· ≤ ·) := by
  induction ds with
  | nil => exact .nil
  | cons d ds ih => exact insertByName_sorted ih

theorem mem_names_iff {ds : List (Definition α)} {name : String} :
    name ∈ (sortByName ds).map (·.name) ↔ Defined ds name := by simp [Defined, mem_sortByName]

/-- Sorting does not change the value of a name that is defined once. -/
theorem valueOf_sortByName {ds : List (Definition α)} (hnames : (ds.map (·.name)).Nodup) {name : String} {v : Expr α} :
    valueOf (sortByName ds) name = some v ↔ ∃ d ∈ ds, d.name = name ∧ d.value = v := by
  have hnodup : ((sortByName ds).map (·.name)).Nodup := ((sortByName_perm ds).map _).nodup_iff.mpr hnames
  constructor
  · intro h
    obtain ⟨d, hd, rfl⟩ := Option.map_eq_some_iff.mp h
    exact ⟨d, mem_sortByName.mp (List.mem_of_find?_eq_some hd), by simpa using List.find?_some hd, rfl⟩
  · rintro ⟨d, hd, rfl, rfl⟩
    have hd := mem_sortByName.mpr hd
    cases hf : (sortByName ds).find? (·.name == d.name) with
    | none => exact absurd (beq_self_eq_true d.name) (List.find?_eq_none.mp hf d hd)
    | some e =>
      have hname : e.name = d.name := by simpa using List.find?_some hf
      rw [valueOf, hf, List.inj_on_of_nodup_map hnodup (List.mem_of_find?_eq_some hf) hd hname, Option.map_some]

/-! ## What two programs share -/

/-- The definitions of the names in `R` have the same values in other definitions. -/
def Shares (R : String → Prop) (ds es : List (Definition α)) : Prop :=
  ∀ d ∈ ds, R d.name → ∃ e ∈ es, e.name = d.name ∧ e.value = d.value

theorem Shares.defined {R : String → Prop} {ds es : List (Definition α)} (h : Shares R ds es) {name : String}
    (hR : R name) (hd : Defined ds name) : Defined es name := by
  obtain ⟨d, hd, rfl⟩ := hd
  obtain ⟨e, he, hname, -⟩ := h d hd hR
  exact ⟨e, he, hname⟩

/-- What is reached is reached where it is shared. -/
theorem Shares.reflTransGen {ds es : List (Definition α)} {name other : String}
    (h : Shares (ReflTransGen (Depends ds) name) ds es) (hr : ReflTransGen (Depends ds) name other) :
    ReflTransGen (Depends es) name other := by
  induction hr with
  | refl => exact .refl
  | @tail n m hn hm ih =>
    refine ih.tail ⟨?_, h.defined (hn.tail hm) hm.2⟩
    obtain ⟨d, hd, rfl, hmem⟩ := hm.1
    obtain ⟨e, he, hname, hvalue⟩ := h d hd hn
    exact ⟨e, he, hname, by rwa [hvalue]⟩

theorem closedIn_reached {ds : List (Definition α)} (hnames : (ds.map (·.name)).Nodup) (name : String) :
    ClosedIn ((sortByName ds).map (·.name)) (ReflTransGen (Depends ds) name) (valueOf (sortByName ds)) := by
  intro n hn v hv x hx hmem
  obtain ⟨d, hd, rfl, rfl⟩ := (valueOf_sortByName hnames).mp hv
  exact hn.tail ⟨⟨d, hd, rfl, hx⟩, mem_names_iff.mp hmem⟩

end

/-- Two programs that share what a name reaches in either of them bring it to the same value. -/
theorem resolve_isolated {ds es ds' es' : List (Definition α)} {name : String} (hds : (ds.map (·.name)).Nodup)
    (hes : (es.map (·.name)).Nodup) (hd : (resolve (sortByName ds)).result = .ok ds')
    (he : (resolve (sortByName es)).result = .ok es') (left : Shares (ReflTransGen (Depends ds) name) ds es)
    (right : Shares (ReflTransGen (Depends es) name) es ds) : valueOf ds' name = valueOf es' name := by
  classical
  have hreach : ReflTransGen (Depends es) name = ReflTransGen (Depends ds) name := by
    funext n
    exact propext ⟨right.reflTransGen, left.reflTransGen⟩
  have hclosed := closedIn_reached hes name
  rw [hreach] at right hclosed
  let R := ReflTransGen (Depends ds) name
  have hagree : ∀ n, R n → valueOf (sortByName es) n = valueOf (sortByName ds) n := by
    intro n hn
    refine Option.ext fun v => ?_
    rw [valueOf_sortByName hds, valueOf_sortByName hes]
    constructor
    · rintro ⟨e, he, rfl, rfl⟩
      exact right e he hn
    · rintro ⟨d, hd, rfl, rfl⟩
      exact left d hd hn
  -- The names that are reached have their turns in the order of the names, in both programs.
  have hturns : ((sortByName es).map (·.name)).filter (R ·) = ((sortByName ds).map (·.name)).filter (R ·) := by
    have nodup : ∀ {fs : List (Definition α)}, (fs.map (·.name)).Nodup → (((sortByName fs).map (·.name)).filter (R ·)).Nodup :=
      fun h => (((sortByName_perm _).map _).nodup_iff.mpr h).filter _
    refine List.Perm.eq_of_pairwise' ((sortByName_sorted es).filter _) ((sortByName_sorted ds).filter _) ?_
    refine (List.perm_ext_iff_of_nodup (nodup hes) (nodup hds)).mpr fun n => ?_
    simp only [List.mem_filter, mem_names_iff, decide_eq_true_eq]
    exact ⟨fun h => ⟨right.defined h.2 h.1, h.2⟩, fun h => ⟨left.defined h.2 h.1, h.2⟩⟩
  rw [resolve_valueOf hd, resolve_valueOf he, foldl_turn_filter hclosed (fun _ h => h) hagree name .refl,
    foldl_turn_filter (closedIn_reached hds name) (fun _ h => h) (fun _ _ => rfl) name .refl]
  exact congrArg (fun ns => List.foldl turn _ ns name) hturns.symm

/-! ## Programs -/

/-- The text defines a name that `name` depends on at any number of removes, or `name` itself. -/
def TextReached (α : Type) [Scalar α] (ts : List String) (name t : String) : Prop :=
  ∃ (ds : List (Definition α)) (d : Definition α), written (String.join ts) = .ok ds ∧ written t = .ok [d] ∧
    ReflTransGen (Depends ds) name d.name

omit [Scalar α] in
theorem exists_valueOf {es : List (Definition α)} {name : String} (h : name ∈ es.map (·.name)) :
    ∃ v, valueOf es name = some v := by
  obtain ⟨e, he, rfl⟩ := List.mem_map.mp h
  cases hf : es.find? (·.name == e.name) with
  | none => exact absurd (beq_self_eq_true e.name) (List.find?_eq_none.mp hf e he)
  | some d => exact ⟨d.value, by rw [valueOf, hf, Option.map_some]⟩

/-- The final value of a name is its value after the pass, tidied. -/
theorem get_of_valueOf {es : List (Definition α)} {p : Program α}
    (h : List.Forall₂ (fun d r => (finish d).result = .ok r) es p.definitions) {name : String} {v : Expr α}
    (hv : valueOf es name = some v) : ∃ value, v.normalize = .ok value ∧ p.get name = .ok value := by
  have hnames : ∀ d (r : String × Expr α), (finish d).result = .ok r → r.1 = d.name := fun d r hr => by
    obtain ⟨_, hname, -⟩ := finish_eq_ok.mp hr
    exact hname
  rcases find?_of_forall₂ h hnames name with ⟨hd, -⟩ | ⟨d, ⟨n, value⟩, hd, hr, hfinish⟩
  · rw [valueOf, hd] at hv
    cases hv
  · rw [valueOf, hd] at hv
    cases hv
    obtain ⟨_, -, hvalue, -⟩ := finish_eq_ok.mp hfinish
    exact ⟨value, hvalue, by rw [get, hr]⟩

/-- Texts that are shared are definitions that are shared. -/
theorem shares_of_texts {ts us : List String} {ds es : List (Definition α)} {name : String}
    (hts : ∀ t ∈ ts, ∃ d : Definition α, written t = .ok [d]) (hus : ∀ u ∈ us, ∃ d : Definition α, written u = .ok [d])
    (hds : written (String.join ts) = .ok ds) (hes : written (String.join us) = .ok es)
    (h : ∀ t ∈ ts, TextReached α ts name t → t ∈ us) : Shares (ReflTransGen (Depends ds) name) ds es := by
  refine forall_mem_right (written_join hts hds) ?_
  rintro t ht d ⟨d', hd', hname', hvalue'⟩ hr
  rw [← hname', ← hvalue']
  exact exists_of_text hus hes (h t ht ⟨ds, d', hds, hd', by rwa [hname']⟩) hd'

/-- What a definition comes to depends only on the definitions that it reaches: two sources made of
    texts of one definition each, which share the texts of what the definition reaches in either of
    them, bring it to the same value. -/
theorem parse_isolated {ts us : List String} {p q : Program α} {name : String}
    (hts : ∀ t ∈ ts, ∃ d : Definition α, written t = .ok [d]) (hus : ∀ u ∈ us, ∃ d : Definition α, written u = .ok [d])
    (hp : parse (String.join ts) = .ok p) (hq : parse (String.join us) = .ok q)
    (hname : ∃ t ∈ ts, ∃ d : Definition α, written t = .ok [d] ∧ d.name = name)
    (left : ∀ t ∈ ts, TextReached α ts name t → t ∈ us) (right : ∀ u ∈ us, TextReached α us name u → u ∈ ts) :
    ∃ value, p.get name = .ok value ∧ q.get name = .ok value := by
  obtain ⟨ds, ds', hds, hds', hps⟩ := parse_eq_ok.mp hp
  obtain ⟨es, es', hes, hes', hqs⟩ := parse_eq_ok.mp hq
  have hisolated : valueOf ds' name = valueOf es' name :=
    resolve_isolated (readDefinitions_checked hds List.nodup_nil (by simp)).1
      (readDefinitions_checked hes List.nodup_nil (by simp)).1 hds' hes' (shares_of_texts hts hus hds hes left)
      (shares_of_texts hus hts hes hds right)
  obtain ⟨v, hv⟩ : ∃ v, valueOf ds' name = some v := by
    refine exists_valueOf ?_
    rw [resolve_names hds', mem_names_iff]
    obtain ⟨t, ht, d, hd, rfl⟩ := hname
    obtain ⟨e, he, hname, -⟩ := exists_of_text hts hds ht hd
    exact ⟨e, he, hname⟩
  obtain ⟨value, hvalue, hget⟩ := get_of_valueOf hps hv
  obtain ⟨value', hvalue', hget'⟩ := get_of_valueOf hqs (hisolated ▸ hv)
  rw [hvalue] at hvalue'
  cases hvalue'
  exact ⟨value, hget, hget'⟩

/-- A program in which `c` depends on `a` and nothing on `c`. -/
theorem parse_dependent : parse (String.join ["c=a;", "b=2;", "a=b;"]) =
    .ok (⟨[("a", .const 2), ("b", .const 2), ("c", .const 2)]⟩ : Program ℚ) := by cbv

theorem parse_isolated_pair : ∃ value : Expr ℚ,
    (⟨[("a", .const 2), ("b", .const 2)]⟩ : Program ℚ).get "a" = .ok value ∧
      (⟨[("a", .const 2), ("b", .const 2), ("c", .const 2)]⟩ : Program ℚ).get "a" = .ok value := by
  have ha : written "a=b;" = .ok [(⟨"a", ⟨0, 1⟩, .ofName "b", ⟨0, 4⟩⟩ : Definition ℚ)] := by cbv
  have hb : written "b=2;" = .ok [(⟨"b", ⟨0, 1⟩, .const 2, ⟨0, 4⟩⟩ : Definition ℚ)] := by cbv
  have hc : written "c=a;" = .ok [(⟨"c", ⟨0, 1⟩, .ofName "a", ⟨0, 4⟩⟩ : Definition ℚ)] := by cbv
  have hp : parse (String.join ["a=b;", "b=2;"]) = .ok (⟨[("a", .const 2), ("b", .const 2)]⟩ : Program ℚ) := by cbv
  have hus : ∀ u ∈ ["c=a;", "b=2;", "a=b;"], ∃ d : Definition ℚ, written u = .ok [d] := by simp [ha, hb, hc]
  refine parse_isolated (by simp [ha, hb]) hus hp parse_dependent ⟨"a=b;", by simp, _, ha, rfl⟩ (by simp) ?_
  -- From `a` only `a` and `b` are reached, so the text of `c` need not be shared.
  rintro u hu ⟨ds, d, hds, hd, hr⟩
  have hmentions : ∀ e ∈ ds, e.name = "a" ∨ e.name = "b" → ∀ m ∈ e.value.freeNames, m = "b" := by
    refine forall_mem_right (written_join hus hds) ?_
    rintro t ht e ⟨e', he', hname, hvalue⟩
    rw [← hname, ← hvalue]
    simp only [List.mem_cons, List.not_mem_nil, or_false] at ht
    rcases ht with rfl | rfl | rfl
    · rw [hc] at he'
      cases he'
      simp
    · rw [hb] at he'
      cases he'
      simp [Expr.freeNames]
    · rw [ha] at he'
      cases he'
      simp [Expr.freeNames, Expr.ofName, Monomial.ofName]
  have hreach : ∀ n, ReflTransGen (Depends ds) "a" n → n = "a" ∨ n = "b" := by
    intro n hn
    induction hn with
    | refl => exact Or.inl rfl
    | tail _ hm ih =>
      obtain ⟨e, he, rfl, hmem⟩ := hm.1
      exact Or.inr (hmentions e he ih _ hmem)
  simp only [List.mem_cons, List.not_mem_nil, or_false] at hu
  rcases hu with rfl | rfl | rfl
  · rw [hc] at hd
    cases hd
    simpa using hreach _ hr
  · simp
  · simp

end Program

end SymbolicAlgebra
