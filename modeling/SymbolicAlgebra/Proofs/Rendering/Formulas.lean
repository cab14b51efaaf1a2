/-
  SymbolicAlgebra.Proofs.Rendering.Formulas — formulas as LaTeX writes them.

  A text is cut into names, numbers, commands with a backslash and single characters; blanks only
  separate (`Latex.words`). The grammar says how words are read as a number (`Latex.Reads`): factors
  stand side by side, the rows that they make can have minuses in front and are added and subtracted,
  and there are powers of names, fractions and parentheses. A number has no sign of its own, so behind
  a factor a minus always begins the next row.

  The grammar is not ambiguous (`Reads.unique`). A machine that takes the words one by one, with the
  rows that are done and the row at hand, and one frame for each open parenthesis or fraction, comes to
  the number of every reading, whatever stands around it (`Reads.run_eq`).
-/

import SymbolicAlgebra.Proofs.Rational
import SymbolicAlgebra.Source.Token

namespace SymbolicAlgebra.Latex

/-! ## Words -/

inductive Word where
  | name (text : String)
  | number (text : String)
  | command (text : String)
  | other (c : Char)
  deriving Repr, DecidableEq

def isNumberPart (c : Char) : Bool := c.isDigit || c = '.'

/-- Which characters the word that begins with `c` goes on over, and which word it is then. -/
def begins (c : Char) : (Char → Bool) × (List Char → Word) :=
  if Token.isNameStart c then (Token.isNamePart, fun cs => .name (String.ofList (c :: cs)))
  else if c.isDigit then (isNumberPart, fun cs => .number (String.ofList (c :: cs)))
  else if c = '\\' then (Char.isAlpha, fun cs => .command (String.ofList cs))
  else (fun _ => false, fun _ => .other c)

/-- The words of a text. -/
def words : List Char → List Word
  | [] => []
  | c :: cs =>
    if Token.isBlank c then words cs
    else (begins c).2 (cs.takeWhile (begins c).1) :: words (cs.dropWhile (begins c).1)
termination_by cs => cs.length
decreasing_by
  · exact Nat.lt_succ_self _
  · exact Nat.lt_succ_of_le (List.dropWhile_suffix _).length_le

/-! ## Readings -/

/-- What a word is to the grammar. A command that is no construct is a name. -/
inductive Symbol where
  | number (v : ℚ)
  | name (n : String)
  | left
  | right
  | frac
  | openParen
  | closeParen
  | openBrace
  | closeBrace
  | caret
  | plus
  | minus
  | other

def Word.symbol : Word → Symbol
  | .number s => (Scalar.ofText? s).elim .other .number
  | .name n => .name n
  | .command c => if c = "left" then .left else if c = "right" then .right else if c = "frac" then .frac else .name c
  | .other '+' => .plus
  | .other '-' => .minus
  | .other '^' => .caret
  | .other '(' => .openParen
  | .other ')' => .closeParen
  | .other '\x7b' => .openBrace
  | .other '\x7d' => .closeBrace
  | .other _ => .other

def symbols (t : String) : List Symbol := (words t.toList).map Word.symbol

/-- The levels of the grammar, the tightest first. -/
inductive Level where
  | factor
  | row
  | signed
  | sum

/-- The symbols can be read as this number, where names have the given values. -/
inductive Reads (ρ : String → ℚ) : Level → List Symbol → ℚ → Prop
  | number (v : ℚ) : Reads ρ .factor [.number v] v
  | name (n : String) : Reads ρ .factor [.name n] (ρ n)
  | power (n : String) (k : ℤ) : Reads ρ .factor [.name n, .caret, .openBrace, .number k, .closeBrace] (ρ n ^ k)
  | paren {ws : List Symbol} {v : ℚ} : Reads ρ .sum ws v →
      Reads ρ .factor (.left :: .openParen :: (ws ++ [.right, .closeParen])) v
  | frac {ws us : List Symbol} {v w : ℚ} : Reads ρ .sum ws v → Reads ρ .sum us w → w ≠ 0 →
      Reads ρ .factor (.frac :: .openBrace :: (ws ++ .closeBrace :: .openBrace :: (us ++ [.closeBrace]))) (v / w)
  | factor {ws : List Symbol} {v : ℚ} : Reads ρ .factor ws v → Reads ρ .row ws v
  | beside {ws us : List Symbol} {v w : ℚ} : Reads ρ .row ws v → Reads ρ .factor us w → Reads ρ .row (ws ++ us) (v * w)
  | row {ws : List Symbol} {v : ℚ} : Reads ρ .row ws v → Reads ρ .signed ws v
  | neg {ws : List Symbol} {v : ℚ} : Reads ρ .signed ws v → Reads ρ .signed (.minus :: ws) (-v)
  | signed {ws : List Symbol} {v : ℚ} : Reads ρ .signed ws v → Reads ρ .sum ws v
  | plus {ws us : List Symbol} {v w : ℚ} : Reads ρ .sum ws v → Reads ρ .signed us w → Reads ρ .sum (ws ++ .plus :: us) (v + w)
  | minus {ws us : List Symbol} {v w : ℚ} : Reads ρ .sum ws v → Reads ρ .signed us w → Reads ρ .sum (ws ++ .minus :: us) (v - w)

variable {ρ : String → ℚ} {level : Level} {ws us : List Symbol} {v w : ℚ}

namespace Reads

theorem row_beside (h : Reads ρ .row ws v) (h' : Reads ρ .row us w) : Reads ρ .row (ws ++ us) (v * w) := by
  generalize hl : Level.row = level at h'
  induction h' with
  | factor hf => exact .beside h hf
  | beside _ hf ih =>
    rw [← List.append_assoc, ← mul_assoc]
    exact .beside (ih hl) hf
  | _ => cases hl

/-- What stands in front of a row that is put behind another row counts for both. -/
theorem signed_beside (h : Reads ρ .signed ws v) (h' : Reads ρ .row us w) : Reads ρ .signed (ws ++ us) (v * w) := by
  generalize hl : Level.signed = level at h
  induction h with
  | row h => exact .row (h.row_beside h')
  | neg _ ih =>
    rw [List.cons_append, neg_mul]
    exact .neg (ih hl)
  | _ => cases hl

/-- A factor does not begin with the sign of a power. -/
theorem head (h : Reads ρ .factor ws v) (rest : List Symbol) : (ws ++ rest).head? ≠ some .caret := by
  cases h <;> simp

end Reads

/-! ## A machine that reads -/

/-- The sum of the rows that are done, the product of the row at hand so far, and whether it has no
    factor yet. -/
structure State where
  sum : ℚ
  row : ℚ
  fresh : Bool

namespace State

def start : State := ⟨0, 1, true⟩

def total (s : State) : ℚ := s.sum + s.row

def times (s : State) (v : ℚ) : State := ⟨s.sum, s.row * v, false⟩

def plus (s : State) : State := ⟨s.total, 1, true⟩

/-- A minus before the first factor of a row is its sign; behind a factor it begins a row. -/
def minus (s : State) : State := if s.fresh then { s with row := -s.row } else ⟨s.total, -1, true⟩

end State

/-- An open parenthesis or an open part of a fraction, with what was read before it. -/
inductive Frame where
  | paren (s : State)
  | top (s : State)
  | bottom (top : ℚ) (s : State)

/-- Takes the symbols one by one; the value of the whole if they make sense. -/
def run (ρ : String → ℚ) : List Frame → State → List Symbol → Option ℚ
  | [], s, [] => some s.total
  | stack, s, .number v :: ws => run ρ stack (s.times v) ws
  | stack, s, .name n :: .caret :: .openBrace :: .number v :: .closeBrace :: ws => run ρ stack (s.times (ρ n ^ ⌊v⌋)) ws
  | stack, s, .name n :: ws => run ρ stack (s.times (ρ n)) ws
  | stack, s, .left :: .openParen :: ws => run ρ (.paren s :: stack) .start ws
  | .paren k :: stack, s, .right :: .closeParen :: ws => run ρ stack (k.times s.total) ws
  | stack, s, .frac :: .openBrace :: ws => run ρ (.top s :: stack) .start ws
  | .top k :: stack, s, .closeBrace :: .openBrace :: ws => run ρ (.bottom s.total k :: stack) .start ws
  | .bottom v k :: stack, s, .closeBrace :: ws => run ρ stack (k.times (v / s.total)) ws
  | stack, s, .plus :: ws => run ρ stack s.plus ws
  | stack, s, .minus :: ws => run ρ stack s.minus ws
  | _, _, _ => none

/-- What the machine does with the symbols of a level, before a rest that is not the exponent of a
    power. A row with a sign comes where no factor was yet, a whole sum where nothing was. -/
def Runs (ρ : String → ℚ) (ws : List Symbol) (v : ℚ) : Level → Prop
  | .factor | .row => ∀ stack s rest, rest.head? ≠ some .caret → run ρ stack s (ws ++ rest) = run ρ stack (s.times v) rest
  | .signed => ∀ stack s rest, rest.head? ≠ some .caret → s.fresh = true →
      run ρ stack s (ws ++ rest) = run ρ stack (s.times v) rest
  | .sum => ∀ stack rest, rest.head? ≠ some .caret → ∃ s : State, s.total = v ∧ s.fresh = false ∧
      run ρ stack .start (ws ++ rest) = run ρ stack s rest

theorem Reads.runs (h : Reads ρ level ws v) : Runs ρ ws v level := by
  induction h with
  | number v =>
    intro stack s rest _
    rw [List.singleton_append, run]
  | name n =>
    intro stack s rest hrest
    rw [List.singleton_append, run]
    -- what follows is no power
    intro v ws hws
    exact hrest (congrArg List.head? hws)
  | power n k =>
    intro stack s rest _
    simp [run]
  | paren _ ih =>
    intro stack s rest _
    obtain ⟨t, rfl, -, hrun⟩ := ih (.paren s :: stack) (.right :: .closeParen :: rest) (by simp)
    simp [run, hrun]
  | @frac ws us _ _ _ _ _ ih ih' =>
    intro stack s rest _
    obtain ⟨t, rfl, -, htop⟩ := ih (.top s :: stack) (.closeBrace :: .openBrace :: (us ++ .closeBrace :: rest)) (by simp)
    obtain ⟨t', rfl, -, hbottom⟩ := ih' (.bottom t.total s :: stack) (.closeBrace :: rest) (by simp)
    simp [run, htop, hbottom]
  | factor _ ih => exact ih
  | beside _ hf ih ih' =>
    intro stack s rest hrest
    rw [List.append_assoc, ih stack s _ (hf.head rest), ih' stack _ rest hrest]
    simp [State.times, mul_assoc]
  | row _ ih =>
    intro stack s rest hrest _
    exact ih stack s rest hrest
  | neg _ ih =>
    intro stack s rest hrest hfresh
    rw [List.cons_append, run, State.minus, if_pos hfresh, ih stack { s with row := -s.row } rest hrest hfresh]
    simp [State.times]
  | signed _ ih =>
    intro stack rest hrest
    exact ⟨_, by simp [State.total, State.start, State.times], rfl, ih stack .start rest hrest rfl⟩
  | plus _ _ ih ih' =>
    intro stack rest hrest
    obtain ⟨s, rfl, -, hrun⟩ := ih stack (.plus :: _) (by simp)
    rw [List.append_assoc, List.cons_append, hrun, run, ih' stack _ rest hrest rfl]
    exact ⟨_, by simp [State.total, State.plus, State.times], rfl, rfl⟩
  | minus _ _ ih ih' =>
    intro stack rest hrest
    obtain ⟨s, rfl, hfresh, hrun⟩ := ih stack (.minus :: _) (by simp)
    rw [List.append_assoc, List.cons_append, hrun, run, ih' stack _ rest hrest (by simp [State.minus, hfresh])]
    exact ⟨_, by simp [State.total, State.minus, State.times, hfresh, sub_eq_add_neg], by simp [State.times], rfl⟩

/-- The machine comes to the value of every reading, so there is only one. -/
theorem Reads.run_eq (h : Reads ρ .sum ws v) : run ρ [] .start ws = some v := by
  obtain ⟨s, rfl, -, hrun⟩ := h.runs [] [] (by simp)
  rw [List.append_nil] at hrun
  rw [hrun, run]

theorem Reads.unique (h : Reads ρ .sum ws v) (h' : Reads ρ .sum ws w) : v = w :=
  Option.some.inj (h.run_eq.symm.trans h'.run_eq)

/-! ## The words of texts side by side -/

variable {c d : Char} {cs ds : List Char}

theorem words_nil : words [] = [] := by rw [words]

theorem words_blank (h : Token.isBlank c = true) : words (c :: cs) = words cs := by rw [words, if_pos h]

/-- Words go on over letters, digits, underscores and points. -/
def isPart (c : Char) : Bool := Token.isNamePart c || isNumberPart c

theorem begins_of_isPart (h : isPart d = false) (c : Char) : (begins c).1 d = false := by
  simp only [isPart, Token.isNamePart, isNumberPart, Bool.or_eq_false_iff] at h
  unfold begins
  split
  · simp [Token.isNamePart, h]
  · split
    · simp [isNumberPart, h]
    · split
      · exact h.1.1
      · rfl

/-- Words end where a character is that none goes on over. -/
theorem words_append (hd : isPart d = false) (cs ds : List Char) : words (cs ++ d :: ds) = words cs ++ words (d :: ds) := by
  induction hn : cs.length using Nat.strong_induction_on generalizing cs with
  | _ n ih =>
    cases cs with
    | nil => rw [words_nil, List.nil_append, List.nil_append]
    | cons c cs =>
      rw [List.length_cons] at hn
      have hend : (begins c).1 d = false := begins_of_isPart hd c
      have hdrop : words ((cs ++ d :: ds).dropWhile (begins c).1) = words (cs.dropWhile (begins c).1) ++ words (d :: ds) := by
        rw [List.dropWhile_append]
        split
        · rename_i hempty
          rw [List.isEmpty_iff.mp hempty, words_nil, List.nil_append, List.dropWhile_cons_of_neg (by simp [hend])]
        · have hle := (List.dropWhile_suffix (l := cs) (begins c).1).length_le
          exact ih _ (by omega) _ rfl
      have htake : (cs ++ d :: ds).takeWhile (begins c).1 = cs.takeWhile (begins c).1 := by
        rw [List.takeWhile_append, List.takeWhile_cons_of_neg (by simp [hend]), List.append_nil]
        split
        · rename_i hlength
          exact (List.takeWhile_prefix (begins c).1).eq_of_length hlength |>.symm
        · rfl
      rw [List.cons_append, words, words]
      split
      · exact ih cs.length (by omega) cs rfl
      · rw [htake, hdrop, List.cons_append]

/-- A word on its own. -/
theorem words_run (hblank : Token.isBlank c = false) (hcs : ∀ d ∈ cs, (begins c).1 d = true) :
    words (c :: cs) = [(begins c).2 cs] := by
  rw [words, if_neg (by simp [hblank]), List.takeWhile_eq_self_iff.mpr hcs, List.dropWhile_eq_nil_iff.mpr hcs, words_nil]

/-- A character that is a word of its own. -/
def isMark (c : Char) : Bool := !Token.isBlank c && !Token.isNameStart c && !c.isDigit && c != '\\'

theorem words_mark (h : isMark c = true) (cs : List Char) : words (c :: cs) = .other c :: words cs := by
  simp only [isMark, Bool.and_eq_true, Bool.not_eq_true', bne_iff_ne, ne_eq] at h
  obtain ⟨⟨⟨hblank, hname⟩, hdigit⟩, hcommand⟩ := h
  have hbegins : begins c = (fun _ => false, fun _ => .other c) := by simp [begins, hname, hdigit, hcommand]
  rw [words, if_neg (by simp [hblank]), hbegins, List.dropWhile_eq_self_iff.mpr (by simp)]

end SymbolicAlgebra.Latex
