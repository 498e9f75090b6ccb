-- Literals that are too large. A literal is written as a number again unless it is
-- at or beyond the middle between the largest double and the next power of two:
-- such a literal is infinite, and nothing of it is written.
import ShapeTraits.Proofs.JsonRoundTrip
import ShapeTraits.Proofs.NumberLiterals

namespace ShapeTraits

/-! ## Rounding at an odd number -/

/-- A half above an odd number is rounded up, so less than that stays. -/
theorem roundQuotient_le_iff {num den m : Nat} (hden : 0 < den) (hodd : m % 2 = 1) :
    roundQuotient num den ≤ m ↔ 2 * num < (2 * m + 1) * den := by
  have hsplit : num = den * (num / den) + num % den := (Nat.div_add_mod num den).symm
  have hmod : num % den < den := Nat.mod_lt num hden
  unfold roundQuotient
  dsimp only
  generalize num / den = q at hsplit ⊢
  generalize num % den = r at hsplit hmod ⊢
  subst hsplit
  rcases Nat.lt_trichotomy q m with hq | rfl | hq
  · have hmul : den * (q + 1) ≤ den * m := Nat.mul_le_mul_left den hq
    have hle : (if den < 2 * r ∨ 2 * r = den ∧ q % 2 = 1 then q + 1 else q) ≤ m := by
      split <;> omega
    refine iff_of_true hle ?_
    rw [Nat.mul_succ] at hmul
    rw [Nat.add_mul, Nat.one_mul, Nat.mul_assoc, Nat.mul_comm m den]
    omega
  · rw [Nat.add_mul, Nat.one_mul, Nat.mul_assoc, Nat.mul_comm q den]
    split <;> omega
  · have hmul : den * (m + 1) ≤ den * q := Nat.mul_le_mul_left den hq
    have hgt : ¬(if den < 2 * r ∨ 2 * r = den ∧ q % 2 = 1 then q + 1 else q) ≤ m := by
      split <;> omega
    refine iff_of_false hgt ?_
    rw [Nat.mul_succ] at hmul
    rw [Nat.add_mul, Nat.one_mul, Nat.mul_assoc, Nat.mul_comm m den]
    omega

theorem roundAt_le_iff {base den m : Nat} (num : Nat) (hbase : 0 < base) (hden : 0 < den)
    (power : Int) (hodd : m % 2 = 1) :
    roundAt base num den power ≤ m ↔ (num : ℚ) / den / (base : ℚ) ^ power < m + 1 / 2 := by
  have hwhole {n d : Nat} (hd : 0 < d) : roundQuotient n d ≤ m ↔ (n : ℚ) / d < m + 1 / 2 := by
    have hd' : (0 : ℚ) < d := by exact_mod_cast hd
    rw [roundQuotient_le_iff hd hodd, div_lt_iff₀ hd', ← Nat.cast_lt (α := ℚ)]
    push_cast
    constructor <;> intro h <;> linarith
  unfold roundAt
  split
  · next h =>
    obtain ⟨k, rfl⟩ := Int.eq_ofNat_of_zero_le h
    have hsame := hwhole (n := num) (Nat.mul_pos hden (Nat.pow_pos hbase : 0 < base ^ k))
    rw [zpow_natCast, div_div]
    push_cast at hsame
    exact hsame
  · next h =>
    obtain ⟨k, rfl⟩ : ∃ k : Nat, power = -k := ⟨(-power).toNat, by omega⟩
    have hsame := hwhole (n := num * base ^ k) hden
    rw [zpow_neg, zpow_natCast, div_inv_eq_mul, div_mul_eq_mul_div]
    push_cast at hsame
    simpa using hsame

/-! ## Which quotients are too large -/

namespace Binary64

/-- The middle between the largest double and the next power of two. The units of the
largest double are odd, so the middle is too large itself. -/
def overflow : ℚ := (2 ^ 54 - 1) * 2 ^ (970 : Int)

theorem zpow_lt_overflow {f : Int} (hf : f ≤ 1023) : (2 : ℚ) ^ f < overflow := by
  have hsplit : (2 : ℚ) ^ (1023 : Int) = 2 ^ 53 * 2 ^ (970 : Int) := zpow_add₀ two_ne_zero 53 970
  calc (2 : ℚ) ^ f ≤ 2 ^ (1023 : Int) := zpow_le_zpow_right₀ one_le_two hf
    _ = 2 ^ 53 * 2 ^ (970 : Int) := hsplit
    _ < overflow := mul_lt_mul_of_pos_right (by norm_num) (by positivity)

theorem overflow_lt_zpow {f : Int} (hf : 1024 ≤ f) : overflow < (2 : ℚ) ^ f := by
  have hsplit : (2 : ℚ) ^ (1024 : Int) = 2 ^ 54 * 2 ^ (970 : Int) := zpow_add₀ two_ne_zero 54 970
  calc overflow < 2 ^ 54 * 2 ^ (970 : Int) := mul_lt_mul_of_pos_right (by norm_num) (by positivity)
    _ = 2 ^ (1024 : Int) := hsplit.symm
    _ ≤ 2 ^ f := zpow_le_zpow_right₀ one_le_two hf

theorem overflow_pos : 0 < overflow :=
  lt_trans (by positivity) (zpow_lt_overflow (f := 0) (by decide))

theorem magnitude_ofMagnitude (negative : Bool) {k : Nat} (hk : k ≤ infinity) :
    (ofMagnitude negative k).magnitude = k := by
  unfold infinity at hk
  unfold magnitude ofMagnitude signBit
  cases negative
  · simp only [Bool.false_eq_true, if_false, UInt64.toNat_ofNat']
    omega
  · simp only [if_true, UInt64.toNat_ofNat']
    omega

theorem isFinite_ofMagnitude (negative : Bool) {k : Nat} (hk : k ≤ infinity) :
    (ofMagnitude negative k).isFinite ↔ k < infinity := by
  rw [isFinite, magnitude_ofMagnitude negative hk, decide_eq_true_iff]

section Range

variable {num den : Nat} {f : Int}

theorem units_le (hden : 0 < den) {q : Int} {k : Nat} (h : (num : ℚ) / den < 2 ^ (k + q)) :
    roundAt 2 num den q ≤ 2 ^ k := by
  have hunit : (0 : ℚ) < 2 ^ q := by positivity
  have hround := roundAt_close num two_pos hden q
  rw [zpow_add₀ two_ne_zero, ← div_lt_iff₀ hunit, zpow_natCast] at h
  rw [abs_le] at hround
  push_cast at hround
  have hlt : (roundAt 2 num den q : ℚ) < 2 ^ k + 1 := by linarith
  have hlt : roundAt 2 num den q < 2 ^ k + 1 := by exact_mod_cast hlt
  omega

theorem le_units (hden : 0 < den) {q : Int} {k : Nat} (h : (2 : ℚ) ^ (k + q) ≤ num / den) :
    2 ^ k ≤ roundAt 2 num den q := by
  have hunit : (0 : ℚ) < 2 ^ q := by positivity
  have hround := roundAt_close num two_pos hden q
  rw [zpow_add₀ two_ne_zero, ← le_div_iff₀ hunit, zpow_natCast] at h
  rw [abs_le] at hround
  push_cast at hround
  have hlt : (2 : ℚ) ^ k < roundAt 2 num den q + 1 := by linarith
  have hlt : 2 ^ k < roundAt 2 num den q + 1 := by exact_mod_cast hlt
  omega

/-- In the highest binade the units decide, and all of them fit in but the last half. -/
theorem units_lt_iff (hden : 0 < den) :
    roundAt 2 num den 971 < 2 ^ 53 ↔ (num : ℚ) / den < overflow := by
  have hiff := roundAt_le_iff (m := 2 ^ 53 - 1) num two_pos hden 971 (by decide)
  have hunit : (0 : ℚ) < 2 ^ (971 : Int) := by positivity
  have hhalf : (((2 ^ 53 - 1 : Nat) : ℚ) + 1 / 2) * 2 ^ (971 : Int) = overflow := by
    rw [overflow, show (971 : Int) = 970 + 1 by decide, zpow_add_one₀ two_ne_zero]
    generalize (2 : ℚ) ^ (970 : Int) = unit
    norm_num
    ring
  rw [Nat.cast_ofNat, div_lt_iff₀ hunit, hhalf] at hiff
  rw [← hiff]
  omega

theorem isFinite_ofRatio (negative : Bool) (hden : 0 < den) :
    (ofRatio negative num den).isFinite ↔ (num : ℚ) / den < overflow := by
  by_cases hzero : num = 0
  · subst hzero
    rw [ofRatio, if_pos rfl, isFinite_ofMagnitude negative (Nat.zero_le _)]
    simp [overflow_pos, infinity]
  obtain ⟨hlow, hhigh⟩ := floorLog2_spec (Nat.pos_of_ne_zero hzero) hden
  rw [ofRatio_eq negative hzero, isFinite_ofMagnitude negative (Nat.min_le_right _ _), min_lt_iff,
    or_iff_left (Nat.lt_irrefl _)]
  generalize floorLog2 num den = f at hlow hhigh ⊢
  rcases lt_trichotomy f 1023 with hf | rfl | hf
  · -- Below the highest binade every number of units fits in.
    have hunits : roundAt 2 num den (max (f - 52) (-1074)) ≤ 2 ^ 53 := by
      refine units_le hden (lt_of_lt_of_le hhigh ?_)
      exact zpow_le_zpow_right₀ one_le_two (by push_cast; omega)
    refine iff_of_true ?_ (lt_trans hhigh (zpow_lt_overflow hf))
    unfold fractions infinity
    omega
  · rw [← units_lt_iff hden]
    unfold fractions infinity
    have hpower : max (1023 - 52) (-1074) = (971 : Int) := by decide
    rw [hpower]
    omega
  · -- Above it even the least number of units is too much.
    have hunits : 2 ^ 52 ≤ roundAt 2 num den (max (f - 52) (-1074)) := by
      refine le_units hden (le_trans ?_ hlow)
      exact zpow_le_zpow_right₀ one_le_two (by push_cast; omega)
    refine iff_of_false ?_ (not_lt.mpr ((overflow_lt_zpow hf).le.trans hlow))
    unfold fractions infinity
    omega

end Range

/-! ## Which decimals are too large -/

theorem isFinite_ofDecimal (negative : Bool) (digits : Nat) (power : Int) :
    (ofDecimal negative digits power).isFinite ↔ (digits : ℚ) * 10 ^ power < overflow := by
  by_cases hzero : digits = 0
  · subst hzero
    rw [ofDecimal, if_pos rfl, isFinite_ofMagnitude negative (Nat.zero_le _)]
    simp [overflow_pos, infinity]
  by_cases hlarge : 400 < power
  · rw [ofDecimal, if_neg hzero, if_pos hlarge, isFinite_ofMagnitude negative (le_refl _)]
    refine iff_of_false (Nat.lt_irrefl _) fun hlt => power_le_of_lt hzero ?_ hlarge
    exact lt_trans hlt (overflow_lt_zpow (by decide))
  by_cases hsmall : (digits.log2 : Int) + 1 + 3 * power < -1080
  · rw [ofDecimal, if_neg hzero, if_neg hlarge, if_pos hsmall,
      isFinite_ofMagnitude negative (Nat.zero_le _)]
    have hle : (digits : ℚ) * 10 ^ power ≤ 2 ^ (-1074 - 1 : Int) :=
      not_lt.mp fun hlt => le_power_of_lt hlt hsmall
    exact iff_of_true (by decide) (lt_of_le_of_lt hle (zpow_lt_overflow (by decide)))
  rw [ofDecimal, if_neg hzero, if_neg hlarge, if_neg hsmall]
  split
  · next h =>
    obtain ⟨k, rfl⟩ := Int.eq_ofNat_of_zero_le h
    rw [isFinite_ofRatio negative one_pos, zpow_natCast]
    push_cast
    simp
  · next h =>
    obtain ⟨k, rfl⟩ : ∃ k : Nat, power = -k := ⟨(-power).toNat, by omega⟩
    have hden : 0 < Nat.pow 10 (-(-(k : Int))).toNat := Nat.pow_pos (by decide)
    rw [isFinite_ofRatio negative hden, zpow_neg, zpow_natCast, ← div_eq_mul_inv]
    simp

end Binary64

open Binary64

/-! ## Which literals are too large -/

/-- No double in the number is infinite or no number. -/
def Number.IsFinite (x : Number) : Prop := ∀ v, x = .double v → v.isFinite

namespace Number

theorem isFinite_double {v : Binary64} : (double v).IsFinite ↔ v.isFinite :=
  ⟨fun h => h v rfl, fun h _ hv => Number.double.inj hv ▸ h⟩

theorem isFinite_ofDigits (negative : Bool) (digits : Nat) :
    (ofDigits negative digits).IsFinite ↔ (digits : ℚ) < overflow := by
  have hinteger {x : Number} (hx : x.isInteger) (hdigits : digits < unsignedLimit) :
      x.IsFinite ↔ (digits : ℚ) < overflow := by
    refine iff_of_true (fun v hv => absurd hx (by simp [hv, isInteger])) ?_
    have hlt : (digits : ℚ) < 2 ^ (64 : Int) := by exact_mod_cast hdigits
    exact lt_trans hlt (zpow_lt_overflow (by decide))
  have hdouble (sign : Bool) : (double (ofDecimal sign digits 0)).IsFinite ↔
      (digits : ℚ) < overflow := by
    rw [isFinite_double, isFinite_ofDecimal, zpow_zero, mul_one]
  unfold ofDigits
  unfold signedLimit unsignedLimit at *
  repeat' split
  · exact hinteger rfl (by omega)
  · exact hdouble true
  · exact hinteger rfl (by omega)
  · exact hinteger rfl (by omega)
  · exact hdouble false

end Number

namespace Numeral

/-- The exact absolute value of a literal. -/
def absValue (n : Numeral) : ℚ :=
  Bytes.digitsValue (n.whole ++ n.fraction.getD []) *
    10 ^ (powerOf n.exponent - (n.fraction.getD []).length)

theorem isFinite_value (n : Numeral) : n.value.IsFinite ↔ n.absValue < overflow := by
  obtain ⟨negative, whole, fraction, exponent⟩ := n
  cases fraction with
  | none =>
    cases exponent with
    | none =>
      simp only [value, Number.isFinite_ofDigits, absValue, powerOf, Option.getD_none,
        List.append_nil, List.length_nil, Nat.cast_zero, sub_zero, zpow_zero, mul_one]
    | some e => exact Number.isFinite_double.trans (isFinite_ofDecimal _ _ _)
  | some digits =>
    cases exponent with
    | none => exact Number.isFinite_double.trans (isFinite_ofDecimal _ _ _)
    | some e => exact Number.isFinite_double.trans (isFinite_ofDecimal _ _ _)

end Numeral

/-! ## What is written -/

/-- The text of a number in JSON: an optional sign, a whole part without leading
zeros, and an optional fraction and exponent. -/
def IsJsonNumber (text : Bytes) : Prop := ∃ n : Numeral, n.WellFormed ∧ text = n.text

theorem not_isJsonNumber_null : ¬IsJsonNumber (utf8 "null") := by
  rintro ⟨n, hn, htext⟩
  obtain ⟨b, more, hb, hstart⟩ := Numeral.text_head hn
  have hletter : utf8 "null" = 0x6e :: utf8 "ull" := by decide
  rw [hb, hletter, List.cons.injEq] at htext
  rw [← htext.1] at hstart
  exact absurd hstart (by decide)

theorem Number.isJsonNumber_text {x : Number} (h : x.IsFinite) : IsJsonNumber x.text := by
  obtain ⟨n, hn, htext, -⟩ := isWritten_of_finite x h
  exact ⟨n, hn, htext.symm⟩

theorem Number.text_of_not_isFinite {x : Number} (h : ¬x.IsFinite) : x.text = utf8 "null" := by
  unfold IsFinite at h
  push Not at h
  obtain ⟨v, rfl, hv⟩ := h
  rw [text, doubleText, if_neg hv]

/-- A number token is a literal with the number of that literal. -/
theorem Lexer.exists_numeral {l : Lexer} {t : Token} {x : Number} (ht : t ∈ l.tokens)
    (hcontent : t.content = .number x) :
    ∃ n : Numeral, n.WellFormed ∧ t.lexeme = n.text ∧ x = n.value := by
  obtain ⟨k, rfl, -⟩ := exists_of_mem_tokens ht
  obtain ⟨n, hparts, hlexeme, hx⟩ := numeral_of_number hcontent
  exact ⟨n, hparts.wellFormed, hlexeme, hx⟩

/-! ## The laws -/

/-- The number of a literal is written as a number in every layout if the literal is
not too large, and else as `null`. -/
theorem the_literals_in_range_are_written_as_numbers {s : Source} {t : Token} {x : Number}
    (ht : t ∈ s.tokens) (hcontent : t.content = .number x) :
    ∃ n : Numeral, n.WellFormed ∧ t.lexeme = n.text ∧ ∀ l layout level,
      let text := (Node.number l x).write layout level
      (n.absValue < overflow → IsJsonNumber text) ∧
        (overflow ≤ n.absValue → text = utf8 "null") := by
  obtain ⟨n, hn, hlexeme, rfl⟩ := Lexer.exists_numeral ht hcontent
  refine ⟨n, hn, hlexeme, fun l layout level => ?_⟩
  rw [Node.write]
  refine ⟨fun hrange => ?_, fun hlarge => ?_⟩
  · exact Number.isJsonNumber_text (n.isFinite_value.mpr hrange)
  · exact Number.text_of_not_isFinite fun hfinite => not_lt.mpr hlarge (n.isFinite_value.mp hfinite)

/-- The fraction of one digit is in range. -/
theorem one_and_a_half_is_written_as_a_number :
    let s : Source := ⟨[], utf8 "1.5"⟩
    let t : Token :=
      ⟨.number (.double ⟨0x3ff8000000000000⟩), utf8 "1.5", ⟨[], 1, 1, 0, 3⟩, ⟨[], 1, 3, 2, 1⟩⟩
    t ∈ s.tokens ∧ ∃ n : Numeral, n.WellFormed ∧ n.text = utf8 "1.5" ∧ n.absValue < overflow ∧
      ∀ l, IsJsonNumber (Node.number l (.double ⟨0x3ff8000000000000⟩)).text := by
  intro s t
  have ht : t ∈ s.tokens := by decide +kernel
  obtain ⟨n, hn, hlexeme, hwritten⟩ := the_literals_in_range_are_written_as_numbers ht rfl
  have hread : Numeral.read (n.text ++ []) = .ok n := Numeral.read_append hn Bytes.avoids_nil
  have hsame : Numeral.read (utf8 "1.5") = .ok ⟨false, utf8 "1", some (utf8 "5"), none⟩ := by
    decide +kernel
  rw [List.append_nil, ← hlexeme, hsame] at hread
  cases hread
  have hrange : (Numeral.mk false (utf8 "1") (some (utf8 "5")) none).absValue < overflow := by
    have hvalue : Bytes.digitsValue (utf8 "1" ++ utf8 "5") = 15 := by decide
    have hlength : (utf8 "5").length = 1 := by decide
    have hbound : (2 : ℚ) ^ (1 : Int) < overflow := zpow_lt_overflow (by decide)
    refine lt_trans ?_ hbound
    simp only [Numeral.absValue, Option.getD_some, hvalue, hlength, powerOf]
    norm_num
  exact ⟨ht, _, hn, hlexeme.symm, hrange, fun l => (hwritten l .compact 0).1 hrange⟩

/-- A literal without any fault whose number is lost: it is no double and gives
`null`. -/
theorem a_literal_beyond_all_doubles_is_written_as_null :
    let s : Source := ⟨[], utf8 "1e999"⟩
    lexicalErrors s.tokens = [] ∧ ∃ t ∈ s.tokens, ∃ x, t.content = .number x ∧
      ∀ l, (Node.number l x).text = utf8 "null" ∧ ¬IsJsonNumber (Node.number l x).text := by
  intro s
  let x : Number := .double ⟨0x7ff0000000000000⟩
  have hnull : x.text = utf8 "null" := by decide +kernel
  have htext (l : Location) : (Node.number l x).text = utf8 "null" := by
    rw [Node.text, Node.write, hnull]
  have ht : ⟨.number x, utf8 "1e999", ⟨[], 1, 1, 0, 5⟩, ⟨[], 1, 5, 4, 1⟩⟩ ∈ s.tokens := by
    decide +kernel
  refine ⟨by decide +kernel, _, ht, x, rfl, fun l => ⟨htext l, ?_⟩⟩
  rw [htext l]
  exact not_isJsonNumber_null

end ShapeTraits
