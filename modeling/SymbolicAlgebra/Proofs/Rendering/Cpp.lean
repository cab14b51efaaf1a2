/-
  SymbolicAlgebra.Proofs.Rendering.Cpp — arithmetic as C++ reads it.

  A text is cut into names, numbers and signs (`Cpp.words`); a name goes on over digits, underscores and
  the points that select members. The grammar says how words are read as a number (`Cpp.Reads`): a minus
  binds tightest, then `*` and `/`, then `+` and `-`, which group to the left, and `pow(a, b)` is a
  power. Numbers are exact and there is no division by zero.

  The grammar is not ambiguous (`Reads.unique`). A machine that takes the words one by one, with what
  waits for the next operand at hand and one frame for each open parenthesis, comes to the number of
  every reading, whatever stands around it (`Reads.run_eq`), and a machine comes to one number.
-/

import SymbolicAlgebra.Proofs.Rational
import SymbolicAlgebra.Proofs.Grammar.ParseTree

namespace SymbolicAlgebra.Cpp

/-! ## Words -/

/-- Names and numbers go on over letters, digits, underscores and points. -/
def isPart (c : Char) : Bool := c.isAlphanum || c = '_' || c = '.'

def isOperator (c : Char) : Bool := c = '+' || c = '-' || c = '*' || c = '/'

/-- The kind of a sign before `cs`. Two operators side by side can be one sign, `--`, or begin a comment;
    neither is arithmetic. -/
def signKind (c : Char) (cs : List Char) : TokenKind :=
  if isOperator c && cs.head?.any isOperator then .symbol else (Token.sign? c).getD .symbol

/-- The words of a text. -/
def words : List Char → List Word
  | [] => []
  | c :: cs =>
    if Token.isBlank c then words cs
    else if isPart c then
      let text := String.ofList (c :: cs.takeWhile isPart)
      (if c.isDigit then .number text else .name text) :: words (cs.dropWhile isPart)
    else .sign (signKind c cs) :: words cs
termination_by cs => cs.length
decreasing_by
  · exact Nat.lt_succ_self _
  · exact Nat.lt_succ_of_le (List.dropWhile_suffix _).length_le
  · exact Nat.lt_succ_self _

/-! ## Readings -/

/-- The levels of the grammar, the tightest first. -/
inductive Level where
  | operand
  | unary
  | term
  | expr

/-- The words can be read as this number, where names have the given values. -/
inductive Reads (σ : String → ℚ) : Level → List Word → ℚ → Prop
  | number {s : String} {v : ℚ} : Scalar.ofText? s = some v → Reads σ .operand [.number s] v
  | name (n : String) : Reads σ .operand [.name n] (σ n)
  | paren {ws : List Word} {v : ℚ} : Reads σ .expr ws v →
      Reads σ .operand (.sign .openParen :: (ws ++ [.sign .closeParen])) v
  | pow {ws us : List Word} {v : ℚ} {k : ℤ} : Reads σ .expr ws v → Reads σ .expr us k → (k < 0 → v ≠ 0) →
      Reads σ .operand (.name "pow" :: .sign .openParen :: (ws ++ .sign .comma :: (us ++ [.sign .closeParen]))) (v ^ k)
  | operand {ws : List Word} {v : ℚ} : Reads σ .operand ws v → Reads σ .unary ws v
  | neg {ws : List Word} {v : ℚ} : Reads σ .unary ws v → Reads σ .unary (.sign .sub :: ws) (-v)
  | unary {ws : List Word} {v : ℚ} : Reads σ .unary ws v → Reads σ .term ws v
  | mul {ws us : List Word} {v w : ℚ} : Reads σ .term ws v → Reads σ .unary us w → Reads σ .term (ws ++ .sign .mul :: us) (v * w)
  | div {ws us : List Word} {v w : ℚ} : Reads σ .term ws v → Reads σ .unary us w → w ≠ 0 →
      Reads σ .term (ws ++ .sign .div :: us) (v / w)
  | term {ws : List Word} {v : ℚ} : Reads σ .term ws v → Reads σ .expr ws v
  | add {ws us : List Word} {v w : ℚ} : Reads σ .expr ws v → Reads σ .term us w → Reads σ .expr (ws ++ .sign .add :: us) (v + w)
  | sub {ws us : List Word} {v w : ℚ} : Reads σ .expr ws v → Reads σ .term us w → Reads σ .expr (ws ++ .sign .sub :: us) (v - w)

/-! ## A machine that reads -/

/-- What waits for an operand: what becomes of it as a factor, and then of the whole term. -/
structure Waiting where
  factor : ℚ → ℚ
  term : ℚ → ℚ

/-- Nothing waits yet. -/
def Waiting.start : Waiting := ⟨id, id⟩

/-- An open parenthesis, with what waits for its value. -/
inductive Frame where
  | paren (k : Waiting)
  | base (k : Waiting)
  | exponent (base : ℚ) (k : Waiting)

/-- The machine is before an operand, or behind one that makes the term so far. -/
inductive Mode where
  | before (k : Waiting)
  | behind (term : ℚ → ℚ) (value : ℚ)

/-- An operand for what waits for it. -/
def Waiting.take (k : Waiting) (v : ℚ) : Mode := .behind k.term (k.factor v)

/-- Takes the words one by one; the value of the whole if they make sense. -/
def run (σ : String → ℚ) : List Frame → Mode → List Word → Option ℚ
  | [], .behind term v, [] => some (term v)
  | stack, .before k, .number s :: ws =>
    match Scalar.ofText? s with
    | some v => run σ stack (k.take v) ws
    | none => none
  | stack, .before k, .name n :: .sign .openParen :: ws =>
    if n = "pow" then run σ (.base k :: stack) (.before .start) ws else none
  | stack, .before k, .name n :: ws => run σ stack (k.take (σ n)) ws
  | stack, .before k, .sign .openParen :: ws => run σ (.paren k :: stack) (.before .start) ws
  | stack, .before k, .sign .sub :: ws => run σ stack (.before ⟨fun v => k.factor (-v), k.term⟩) ws
  | stack, .behind term v, .sign .mul :: ws => run σ stack (.before ⟨fun w => v * w, term⟩) ws
  | stack, .behind term v, .sign .div :: ws => run σ stack (.before ⟨fun w => v / w, term⟩) ws
  | stack, .behind term v, .sign .add :: ws => run σ stack (.before ⟨id, fun w => term v + w⟩) ws
  | stack, .behind term v, .sign .sub :: ws => run σ stack (.before ⟨id, fun w => term v - w⟩) ws
  | .paren k :: stack, .behind term v, .sign .closeParen :: ws => run σ stack (k.take (term v)) ws
  | .base k :: stack, .behind term v, .sign .comma :: ws => run σ (.exponent (term v) k :: stack) (.before .start) ws
  | .exponent b k :: stack, .behind term v, .sign .closeParen :: ws => run σ stack (k.take (b ^ ⌊term v⌋)) ws
  | _, _, _ => none

/-- What the machine does with the words of a level: it goes on before `rest` with the value of the words
    taken by what waited for them. A term begins behind a sign that is not `*` or `/`, and a whole
    expression where nothing waits. -/
def Runs (σ : String → ℚ) (ws : List Word) (v : ℚ) : Level → Prop
  | .operand | .unary => ∀ stack k rest, rest.head? ≠ some (.sign .openParen) →
      run σ stack (.before k) (ws ++ rest) = run σ stack (k.take v) rest
  | .term => ∀ stack term rest, rest.head? ≠ some (.sign .openParen) →
      run σ stack (.before ⟨id, term⟩) (ws ++ rest) = run σ stack (.behind term v) rest
  | .expr => ∀ stack rest, rest.head? ≠ some (.sign .openParen) → ∃ term w, term w = v ∧
      run σ stack (.before .start) (ws ++ rest) = run σ stack (.behind term w) rest

variable {σ : String → ℚ} {level : Level} {ws : List Word} {v w : ℚ}

theorem Reads.runs (h : Reads σ level ws v) : Runs σ ws v level := by
  induction h with
  | number hs =>
    intro stack k rest _
    simp only [List.singleton_append, run, hs]
  | name n =>
    intro stack k rest hrest
    rw [List.singleton_append, run]
    -- a parenthesis here would be that of a call
    intro ws hws
    exact hrest (congrArg List.head? hws)
  | paren _ ih =>
    intro stack k rest _
    obtain ⟨term, w, rfl, hrun⟩ := ih (.paren k :: stack) (.sign .closeParen :: rest) (by simp)
    simp [run, hrun]
  | @pow ws us _ _ _ _ _ ih ih' =>
    intro stack k rest _
    obtain ⟨term, w, rfl, hbase⟩ := ih (.base k :: stack) (.sign .comma :: (us ++ .sign .closeParen :: rest)) (by simp)
    obtain ⟨term', w', hw', hexponent⟩ := ih' (.exponent (term w) k :: stack) (.sign .closeParen :: rest) (by simp)
    simp [run, hbase, hexponent, hw']
  | operand _ ih => exact ih
  | neg _ ih =>
    intro stack k rest hrest
    rw [List.cons_append, run, ih stack _ rest hrest]
    rfl
  | unary _ ih =>
    intro stack term rest hrest
    exact ih stack ⟨id, term⟩ rest hrest
  | mul _ _ ih ih' =>
    intro stack term rest hrest
    rw [List.append_assoc, List.cons_append, ih stack term _ (by simp), run, ih' stack _ rest hrest]
    rfl
  | div _ _ _ ih ih' =>
    intro stack term rest hrest
    rw [List.append_assoc, List.cons_append, ih stack term _ (by simp), run, ih' stack _ rest hrest]
    rfl
  | term _ ih =>
    intro stack rest hrest
    exact ⟨id, _, rfl, ih stack id rest hrest⟩
  | add _ _ ih ih' =>
    intro stack rest hrest
    obtain ⟨term, w, rfl, hrun⟩ := ih stack (.sign .add :: _) (by simp)
    rw [List.append_assoc, List.cons_append, hrun, run, ih' stack _ rest hrest]
    exact ⟨_, _, rfl, rfl⟩
  | sub _ _ ih ih' =>
    intro stack rest hrest
    obtain ⟨term, w, rfl, hrun⟩ := ih stack (.sign .sub :: _) (by simp)
    rw [List.append_assoc, List.cons_append, hrun, run, ih' stack _ rest hrest]
    exact ⟨_, _, rfl, rfl⟩

/-- The machine comes to the value of every reading, so there is only one. -/
theorem Reads.run_eq (h : Reads σ .expr ws v) : run σ [] (.before .start) ws = some v := by
  obtain ⟨term, w, rfl, hrun⟩ := h.runs [] [] (by simp)
  rw [List.append_nil] at hrun
  rw [hrun, run]

theorem Reads.unique (h : Reads σ .expr ws v) (h' : Reads σ .expr ws w) : v = w :=
  Option.some.inj (h.run_eq.symm.trans h'.run_eq)

/-- An operand begins with a name, a number or a parenthesis. -/
theorem Reads.head (h : Reads σ .operand ws v) : ∃ w us, ws = w :: us ∧ ∀ kind, w = .sign kind → kind = .openParen := by
  cases h with
  | number => exact ⟨_, _, rfl, by simp⟩
  | name => exact ⟨_, _, rfl, by simp⟩
  | paren => exact ⟨_, _, rfl, by simp⟩
  | pow => exact ⟨_, _, rfl, by simp⟩

/-- The text is read as this number and as no other. -/
def ReadsAs (σ : String → ℚ) (text : String) (v : ℚ) : Prop :=
  Reads σ .expr (words text.toList) v ∧ ∀ w, Reads σ .expr (words text.toList) w → w = v

/-! ## The words of texts side by side -/

variable {c d : Char} {cs ds : List Char} {kind : TokenKind}

theorem words_nil : words [] = [] := by rw [words]

theorem words_blank (h : Token.isBlank c = true) : words (c :: cs) = words cs := by rw [words, if_pos h]

/-- Signs and blanks are not part of a name or a number. -/
theorem isPart_of_sign (h : Token.sign? c = some kind) : isPart c = false ∧ Token.isBlank c = false := by
  unfold Token.sign? at h
  split at h <;> first | decide | cases h

theorem words_sign (h : Token.sign? c = some kind)
    (hnext : isOperator c = true → ∀ d, cs.head? = some d → isOperator d = false) :
    words (c :: cs) = .sign kind :: words cs := by
  have hkind : signKind c cs = kind := by
    unfold signKind
    rw [if_neg, h, Option.getD_some]
    rw [Bool.and_eq_true, not_and]
    intro hc
    cases cs with
    | nil => simp
    | cons d cs => simp [hnext hc d rfl]
  rw [words, if_neg (by simp [isPart_of_sign h]), if_neg (by simp [isPart_of_sign h]), hkind]

theorem words_bracket (h : Token.sign? c = some kind) (hc : isOperator c = false) (cs : List Char) :
    words (c :: cs) = .sign kind :: words cs :=
  words_sign h fun hoperator => by
    rw [hc] at hoperator
    cases hoperator

/-- A name or a number on its own. -/
theorem words_run (hc : isPart c = true) (hcs : ∀ d ∈ cs, isPart d = true) :
    words (c :: cs) = [if c.isDigit then .number (String.ofList (c :: cs)) else .name (String.ofList (c :: cs))] := by
  have hblank : Token.isBlank c = false := by
    by_contra hb
    unfold Token.isBlank at hb
    simp only [Bool.not_eq_false, Bool.or_eq_true, decide_eq_true_eq] at hb
    rcases hb with ((rfl | rfl) | rfl) | rfl <;> cases hc
  rw [words, if_neg (by simp [hblank]), if_pos hc, List.takeWhile_eq_self_iff.mpr hcs, List.dropWhile_eq_nil_iff.mpr hcs,
    words_nil]

/-- Names and numbers end where a sign or a blank begins, and so do operators where no other one does. -/
theorem words_append (hpart : isPart d = false) (hoperator : isOperator d = false) (cs ds : List Char) :
    words (cs ++ d :: ds) = words cs ++ words (d :: ds) := by
  -- A name or a number may take more than one character, so the induction is on the length.
  induction hn : cs.length using Nat.strong_induction_on generalizing cs with
  | _ n ih =>
    cases cs with
    | nil => rw [words_nil, List.nil_append, List.nil_append]
    | cons c cs =>
      rw [List.length_cons] at hn
      have htail : words (cs ++ d :: ds) = words cs ++ words (d :: ds) := ih cs.length (by omega) cs rfl
      have hdrop : words ((cs ++ d :: ds).dropWhile isPart) = words (cs.dropWhile isPart) ++ words (d :: ds) := by
        rw [List.dropWhile_append]
        split
        · rename_i hempty
          rw [List.isEmpty_iff.mp hempty, words_nil, List.nil_append, List.dropWhile_cons_of_neg (by simp [hpart])]
        · have hle := (List.dropWhile_suffix (l := cs) isPart).length_le
          exact ih _ (by omega) _ rfl
      have htake : (cs ++ d :: ds).takeWhile isPart = cs.takeWhile isPart := by
        rw [List.takeWhile_append, List.takeWhile_cons_of_neg (by simp [hpart]), List.append_nil]
        split
        · rename_i hlength
          exact (List.takeWhile_prefix isPart).eq_of_length hlength |>.symm
        · rfl
      have hsign : signKind c (cs ++ d :: ds) = signKind c cs := by
        unfold signKind
        cases cs with
        | nil => simp [hoperator]
        | cons e cs => rfl
      rw [List.cons_append, words, words]
      split
      · exact htail
      · split
        · rw [htake, hdrop, List.cons_append]
        · rw [hsign, htail, List.cons_append]

/-- A text that begins with an operator begins with a sign. -/
theorem words_operator_head (h : isOperator c = true) (cs : List Char) :
    ∃ kind us, words (c :: cs) = .sign kind :: us ∧ kind ≠ .openParen := by
  have hkind : isPart c = false ∧ Token.isBlank c = false ∧ signKind c cs ≠ .openParen := by
    unfold isOperator at h
    simp only [Bool.or_eq_true, decide_eq_true_eq] at h
    unfold signKind
    rcases h with ((rfl | rfl) | rfl) | rfl <;> refine ⟨by decide, by decide, ?_⟩ <;> split <;> decide
  refine ⟨signKind c cs, words cs, ?_, hkind.2.2⟩
  rw [words, if_neg (by simp [hkind]), if_neg (by simp [hkind])]

end SymbolicAlgebra.Cpp
