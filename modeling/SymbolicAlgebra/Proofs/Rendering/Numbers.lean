/-
  SymbolicAlgebra.Proofs.Rendering.Numbers — decimal fractions are written with all their digits and
  read back as they were.

  A fraction is written without a sign as digits, then, if it is not whole, a point and more digits
  (`Numeral.Spells`). Such a numeral is read as the number of all digits, divided by ten for each digit
  after the point.
-/

import SymbolicAlgebra.Proofs.Grammar.Scanning
import SymbolicAlgebra.Proofs.Rational
import SymbolicAlgebra.Style

namespace SymbolicAlgebra

/-! ## Numerals -/

/-- Some digits, then possibly a point and more digits: `d` is the number of all digits, and `k` of
    them are behind the point. -/
def Numeral.Spells (cs : List Char) (d k : Nat) : Prop :=
  ∃ whole fraction : List Char, whole ≠ [] ∧ (∀ c ∈ whole ++ fraction, c.isDigit = true) ∧
    (cs = whole ∧ fraction = [] ∨ cs = whole ++ '.' :: fraction) ∧ fraction.length = k ∧ ofDigits (whole ++ fraction) = d

namespace Numeral

variable {cs : List Char} {d k : Nat}

theorem ofDigits_toDigits (n : Nat) : ofDigits (Nat.toDigits 10 n) = n :=
  Nat.ofDigitChars_toDigits (by decide) (by decide)

/-- Zeros in front do not count. -/
theorem ofDigits_replicate_zero (n : Nat) (ds : List Char) : ofDigits (List.replicate n '0' ++ ds) = ofDigits ds := by
  induction n with
  | zero => rfl
  | succ n ih =>
    rw [List.replicate_succ, List.cons_append, ofDigits, List.foldl_cons]
    exact ih

theorem toLower_of_isDigit {c : Char} (h : c.isDigit = true) : c.toLower = c := by
  unfold Char.isDigit at h
  unfold Char.toLower
  rw [dif_neg]
  simp only [ge_iff_le, Bool.and_eq_true, decide_eq_true_eq, UInt32.le_iff_toNat_le] at h ⊢
  have hnine : '9'.val.toNat = 57 := by decide
  have hupper : 'A'.val.toNat = 65 := by decide
  omega

/-- A numeral that begins with a digit has no sign and is none of the words. -/
theorem ofChars?_of_isDigit {c : Char} (h : c.isDigit = true) (rest : List Char) :
    ofChars? (c :: rest) = (decimal? (c :: rest)).map (.finite false) := by
  have hsign : sign (c :: rest) = (false, c :: rest) := by
    unfold sign
    split
    · rename_i heq
      obtain ⟨rfl, -⟩ := List.cons.inj heq
      cases h
    · rename_i heq
      obtain ⟨rfl, -⟩ := List.cons.inj heq
      cases h
    · rfl
  have hword (x : Char) (hx : x.isDigit = false) (xs : List Char) :
      String.ofList ((c :: rest).map Char.toLower) ≠ String.ofList (x :: xs) := by
    intro heq
    have heq := String.ofList_injective heq
    rw [List.map_cons, toLower_of_isDigit h] at heq
    obtain ⟨rfl, -⟩ := List.cons.inj heq
    rw [h] at hx
    cases hx
  have hinf : String.ofList ((c :: rest).map Char.toLower) ≠ "inf" := hword 'i' (by decide) ['n', 'f']
  have hinfinity : String.ofList ((c :: rest).map Char.toLower) ≠ "infinity" :=
    hword 'i' (by decide) ['n', 'f', 'i', 'n', 'i', 't', 'y']
  have hnan : String.ofList ((c :: rest).map Char.toLower) ≠ "nan" := hword 'n' (by decide) ['a', 'n']
  simp only [ofChars?, hsign, hinf, hinfinity, hnan, or_self, if_false]

namespace Spells

/-- A numeral begins with a digit and goes on with digits and points. -/
theorem eq_cons (h : Spells cs d k) : ∃ c rest, cs = c :: rest ∧ c.isDigit = true ∧
    ∀ x ∈ rest, x.isDigit = true ∨ x = '.' := by
  obtain ⟨whole, fraction, hne, hdigits, hcs, -⟩ := h
  obtain ⟨c, rest, rfl⟩ := List.exists_cons_of_ne_nil hne
  obtain ⟨hc, hmore⟩ := List.forall_mem_cons.mp hdigits
  rcases hcs with ⟨rfl, rfl⟩ | rfl
  · exact ⟨c, rest, rfl, hc, fun x hx => Or.inl (hmore x (by simpa using hx))⟩
  · refine ⟨c, rest ++ '.' :: fraction, rfl, hc, fun x hx => ?_⟩
    rcases List.mem_append.mp hx with hx | hx
    · exact Or.inl (hmore x (List.mem_append_left _ hx))
    · rcases List.mem_cons.mp hx with rfl | hx
      · exact Or.inr rfl
      · exact Or.inl (hmore x (List.mem_append_right _ hx))

theorem ofText? (h : Spells cs d k) : Numeral.ofText? (String.ofList cs) = some (.finite false ⟨d, -k⟩) := by
  obtain ⟨c, rest, rfl, hc, -⟩ := h.eq_cons
  obtain ⟨whole, fraction, hne, hdigits, hcs, rfl, rfl⟩ := h
  rw [Numeral.ofText?, String.toList_ofList, ofChars?_of_isDigit hc,
    decimal?_of_digits hdigits (by simp [hne]) hcs, Option.map_some]

end Spells

end Numeral

namespace Token

/-- A number goes on over digits, a point and more digits. -/
theorem numberRun_eq_length {cs whole fraction : List Char} (hdigits : ∀ c ∈ whole ++ fraction, c.isDigit = true)
    (hcs : cs = whole ∧ fraction = [] ∨ cs = whole ++ '.' :: fraction) : numberRun cs = cs.length := by
  obtain ⟨hwhole, hfraction⟩ := List.forall_mem_append.mp hdigits
  have hpart (ds : List Char) (h : ∀ x ∈ ds, x.isDigit = true) : ds.takeWhile isDigitPart = ds :=
    List.takeWhile_eq_self_iff.mpr fun x hx => by simp [isDigitPart, h x hx]
  rcases hcs with ⟨rfl, rfl⟩ | rfl
  · simp [numberRun, run, hpart _ hwhole]
  · have hrun : run isDigitPart (whole ++ '.' :: fraction) = whole.length := by
      rw [run, List.takeWhile_append, if_pos (by rw [hpart _ hwhole]), List.takeWhile_cons_of_neg (by decide),
        List.append_nil]
    have hrun' : run isDigitPart fraction = fraction.length := by rw [run, hpart _ hfraction]
    simp only [numberRun, hrun, List.drop_left, hrun', List.length_append, List.length_cons]
    omega

/-- The scanner takes a numeral for one number. -/
theorem textWords_number {cs : List Char} {d k : Nat} (h : Numeral.Spells cs d k) :
    textWords cs = [.number (String.ofList cs)] := by
  obtain ⟨c, rest, rfl, hc, -⟩ := h.eq_cons
  obtain ⟨whole, fraction, hne, hdigits, hcs, -⟩ := h
  obtain ⟨x, whole, rfl⟩ := List.exists_cons_of_ne_nil hne
  have hrest : rest = whole ∧ fraction = [] ∨ rest = whole ++ '.' :: fraction := by
    rcases hcs with ⟨hcs, hnil⟩ | hcs
    · exact Or.inl ⟨(List.cons.inj hcs).2, hnil⟩
    · exact Or.inr (List.cons.inj hcs).2
  have hrun := numberRun_eq_length (fun c hc => hdigits c (List.mem_cons_of_mem x hc)) hrest
  have hfirst : first c rest = (.number, rest.length) := by simp [first, isDigit_start hc, hc, hrun]
  rw [textWords_cons, hfirst, List.take_length, List.drop_length, textWords_nil]
  rfl

end Token

/-- The notation of a decimal fraction spells it. -/
theorem Decimal.spells_chars (d k : Nat) : Numeral.Spells (Decimal.mk d (-k)).chars d k := by
  have hdigits : ∀ c ∈ Nat.toDigits 10 d, c.isDigit = true :=
    fun c hc => Nat.isDigit_of_mem_toDigits (by decide) (by decide) hc
  have hne : Nat.toDigits 10 d ≠ [] := Nat.toDigits_ne_nil
  unfold chars
  dsimp only
  split
  · obtain rfl : k = 0 := by omega
    refine ⟨Nat.toDigits 10 d, [], hne, by simpa using hdigits, Or.inl ⟨by simp, rfl⟩, rfl, ?_⟩
    rw [List.append_nil, Numeral.ofDigits_toDigits]
  · rw [show (-(-(k : Int))).toNat = k by omega]
    split
    · rename_i hk hlength
      refine ⟨_, _, ?_, ?_, Or.inr rfl, ?_, ?_⟩
      · intro hnil
        have := congrArg List.length hnil
        rw [List.length_take, List.length_nil] at this
        omega
      · rwa [List.take_append_drop]
      · rw [List.length_drop]
        omega
      · rw [List.take_append_drop, Numeral.ofDigits_toDigits]
    · -- All digits come behind the point, with zeros before them.
      rename_i hk hlength
      refine ⟨['0'], _, by simp, ?_, Or.inr rfl, ?_, ?_⟩
      · intro c hc
        simp only [List.mem_append, List.mem_singleton, List.mem_replicate] at hc
        rcases hc with rfl | ⟨-, rfl⟩ | hc
        · decide
        · decide
        · exact hdigits c hc
      · rw [List.length_append, List.length_replicate]
        omega
      · rw [show ['0'] = List.replicate 1 '0' from rfl, Numeral.ofDigits_replicate_zero, Numeral.ofDigits_replicate_zero,
          Numeral.ofDigits_toDigits]

/-! ## Fractions that end -/

namespace Rational

/-- A fraction whose digits end. -/
def IsDecimal (v : ℚ) : Prop := ∃ (n : ℤ) (k : ℕ), v = n / 10 ^ k

theorem IsDecimal.intCast (n : ℤ) : IsDecimal n := ⟨n, 0, by simp⟩

theorem IsDecimal.neg {v : ℚ} (h : IsDecimal v) : IsDecimal (-v) := by
  obtain ⟨n, k, rfl⟩ := h
  exact ⟨-n, k, by push_cast; ring⟩

/-- A denominator that divides a power of ten divides one that is not larger than itself. -/
theorem places?_of_dvd {m k : Nat} (h : m ∣ 10 ^ k) : ∃ j, places? m = some j ∧ m ∣ 10 ^ j := by
  have h' : m ∣ 2 ^ k * 5 ^ k := by rwa [← Nat.mul_pow]
  obtain ⟨x, y, hx, hy, rfl⟩ := Nat.dvd_mul.mp h'
  obtain ⟨a, -, rfl⟩ := (Nat.dvd_prime_pow Nat.prime_two).mp hx
  obtain ⟨b, -, rfl⟩ := (Nat.dvd_prime_pow Nat.prime_five).mp hy
  have hpos : 2 ^ a * 5 ^ b ≠ 0 := by positivity
  have hdvd : 2 ^ a * 5 ^ b ∣ 10 ^ max a b := by
    rw [show 10 = 2 * 5 from rfl, Nat.mul_pow]
    exact Nat.mul_dvd_mul (Nat.pow_dvd_pow 2 (le_max_left a b)) (Nat.pow_dvd_pow 5 (le_max_right a b))
  have hle : 2 ^ max a b ≤ 2 ^ a * 5 ^ b := by
    rcases le_total a b with hab | hab
    · rw [max_eq_right hab]
      calc 2 ^ b ≤ 5 ^ b := Nat.pow_le_pow_left (by decide) b
        _ ≤ 2 ^ a * 5 ^ b := Nat.le_mul_of_pos_left _ (by positivity)
    · rw [max_eq_left hab]
      exact Nat.le_mul_of_pos_right _ (by positivity)
  -- So the search goes far enough.
  have hmem : max a b ∈ List.range ((2 ^ a * 5 ^ b).log2 + 1) :=
    List.mem_range.mpr (Nat.lt_succ_of_le ((Nat.le_log2 hpos).mpr hle))
  cases hfind : places? (2 ^ a * 5 ^ b) with
  | none =>
    have := List.find?_eq_none.mp hfind _ hmem
    exact absurd (Nat.mod_eq_zero_of_dvd hdvd) (by simpa using this)
  | some j => exact ⟨j, rfl, Nat.dvd_of_mod_eq_zero (by simpa using List.find?_some hfind)⟩

theorem den_dvd {v : ℚ} (h : IsDecimal v) : ∃ k, v.den ∣ 10 ^ k := by
  obtain ⟨n, k, rfl⟩ := h
  refine ⟨k, ?_⟩
  have := Rat.den_dvd n (10 ^ k)
  exact_mod_cast this

theorem ofDecimal_neg (d k : Nat) : ofDecimal ⟨d, -k⟩ = d / 10 ^ k := by
  unfold ofDecimal
  dsimp only
  split
  · obtain rfl : k = 0 := by omega
    simp
  · rw [show (-(-(k : Int))).toNat = k by omega]

/-- A fraction that is not negative is spelled out, and the spelling stands for it. -/
theorem spells_text {v : ℚ} (h : IsDecimal v) (hv : 0 ≤ v) :
    ∃ d k, Numeral.Spells (text v).toList d k ∧ (d : ℚ) / 10 ^ k = v := by
  obtain ⟨m, hm⟩ := den_dvd h
  obtain ⟨k, hplaces, hk⟩ := places?_of_dvd hm
  refine ⟨v.num.natAbs * (10 ^ k / v.den), k, ?_, ?_⟩
  · rw [text, hplaces]
    dsimp only
    rw [if_neg (not_lt.mpr hv), Decimal.text, String.toList_ofList]
    exact Decimal.spells_chars _ k
  · have hden : (v.den : ℚ) ≠ 0 := by exact_mod_cast v.den_ne_zero
    have hnum : ((v.num.natAbs : ℕ) : ℚ) = v.num := by
      rw [Nat.cast_natAbs, abs_of_nonneg (Rat.num_nonneg.mpr hv)]
    push_cast
    rw [Nat.cast_div hk hden, hnum]
    push_cast
    rw [mul_div_assoc', div_div, mul_div_mul_right _ _ (by positivity), Rat.num_div_den]

theorem ofText?_text {v : ℚ} (h : IsDecimal v) (hv : 0 ≤ v) : ofText? (text v) = some v := by
  obtain ⟨d, k, hspells, hvalue⟩ := spells_text h hv
  have hread := hspells.ofText?
  rw [String.ofList_toList] at hread
  simp [ofText?, hread, ofDecimal_neg, hvalue]

/-- A negative fraction is written with a minus before it. -/
theorem text_of_neg {v : ℚ} (hv : v < 0) : text v = "-" ++ text (-v) := by
  unfold text
  dsimp only
  rw [if_pos hv, if_neg (by linarith), Rat.neg_den, Rat.neg_num, Int.natAbs_neg]

end Rational

namespace Style

/-- All styles write numbers in this way. -/
theorem number_eq_text (v : ℚ) : number v = Rational.text v := by
  unfold number
  split
  · rename_i h
    rw [eq_of_beq h]
    rfl
  · rfl

theorem number_of_neg {v : ℚ} (hv : v < 0) : number v = "-" ++ number (-v) := by
  rw [number_eq_text, number_eq_text, Rational.text_of_neg hv]

end Style

end SymbolicAlgebra
