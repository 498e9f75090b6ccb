-- The text of a finite double is a numeral that is read back as the double: its
-- seventeen digits stand in one of three forms, without the zeros at the end.
import ShapeTraits.Proofs.Rounding

namespace ShapeTraits

open Numeral (Digits)

/-! ## Zeros -/

namespace Bytes

theorem digitsValue_zeros {zeros : Bytes} (h : ∀ b ∈ zeros, (b == Byte.zero) = true) :
    digitsValue zeros = 0 := by
  induction zeros with
  | nil => rfl
  | cons b zeros ih =>
    obtain ⟨hb, hzeros⟩ := List.forall_mem_cons.mp h
    have hzero : Byte.zero.toNat - 0x30 = 0 := rfl
    rw [show b :: zeros = [b] ++ zeros from rfl, digitsValue_append, ih hzeros, beq_iff_eq.mp hb]
    simp [digitsValue, hzero]

theorem length_ofNat {n : Nat} (hlow : 10 ^ 16 ≤ n) (hhigh : n < 10 ^ 17) :
    (ofNat n).length = 17 := by
  have hle := pow_length_ofNat_le (n := n) (by omega)
  have hlt := lt_pow_length_ofNat n
  have h1 : 16 < (ofNat n).length :=
    (Nat.pow_lt_pow_iff_right (by decide)).mp (lt_of_le_of_lt hlow hlt)
  have h2 : (ofNat n).length < 18 := by
    refine (Nat.pow_lt_pow_iff_right (by decide : 1 < 10)).mp ?_
    calc 10 ^ (ofNat n).length ≤ 10 * n := hle
      _ < 10 * 10 ^ 17 := by omega
      _ = 10 ^ 18 := by decide
  omega

end Bytes

namespace Binary64

/-! ## A text in its parts -/

/-- The power of ten that an exponent stands for. -/
def powerOf : Option Exponent → Int
  | none => 0
  | some e => e.value

/-- The text of digits around a point that stand for a number. -/
structure Shows (text : Bytes) (y : ℚ) (whole decimals : Bytes) (e : Option Exponent) : Prop where
  text_eq : text = whole ++ fractionText decimals ++ Numeral.exponentText e
  digits : Digits whole
  noZero : whole.head? = some Byte.zero → whole.length ≤ 1
  decimal : ∀ b ∈ decimals, Byte.isDigit b = true
  letter : ∀ x, e = some x → x.letter = 0x65
  sign : ∀ x, e = some x → ∀ s, x.sign = some s → Numeral.isSign s = true
  exponent : ∀ x, e = some x → Digits x.digits
  value : (Bytes.digitsValue (whole ++ decimals) : ℚ) * 10 ^ (powerOf e - decimals.length) = y

/-- The digits after the point without the zeros at the end. -/
def kept (decimals : Bytes) : Bytes := Bytes.dropTrailing (· == Byte.zero) decimals

/-- The fraction of a numeral: one zero where neither digits nor an exponent
would show that it is no integer. -/
def shownFraction (decimals : Bytes) (e : Option Exponent) : Option Bytes :=
  if kept decimals ≠ [] then some (kept decimals) else if e.isSome then none else some [Byte.zero]

theorem fractionText_eq (decimals : Bytes) :
    fractionText decimals = if kept decimals = [] then [] else Byte.dot :: kept decimals := by
  unfold fractionText kept
  split
  · next h => rw [h, if_pos rfl]
  · next h => rw [if_neg h]

variable {text whole decimals : Bytes} {e : Option Exponent} {y : ℚ}

theorem kept_digits (h : ∀ b ∈ decimals, Byte.isDigit b = true) :
    ∀ b ∈ kept decimals, Byte.isDigit b = true := by
  obtain ⟨dropped, hsplit, -⟩ := Bytes.dropTrailing_append (· == Byte.zero) decimals
  intro b hb
  rw [hsplit] at h
  exact h b (List.mem_append_left _ hb)

theorem Shows.wellFormed (h : Shows text y whole decimals e) (negative : Bool) :
    (Numeral.mk negative whole (shownFraction decimals e) e).WellFormed where
  whole := h.digits
  noZero := h.noZero
  fraction := by
    intro digits hdigits
    simp only [shownFraction] at hdigits
    by_cases hkept : kept decimals = []
    · cases e with
      | none =>
        simp only [hkept, ne_eq, not_true_eq_false, if_false, Option.isSome_none,
          Bool.false_eq_true, Option.some.injEq] at hdigits
        rw [← hdigits]
        exact Numeral.digits_zero
      | some x => simp [hkept] at hdigits
    · simp only [hkept, ne_eq, not_false_eq_true, if_true, Option.some.injEq] at hdigits
      rw [← hdigits]
      exact ⟨hkept, kept_digits h.decimal⟩
  letter := by
    intro x hx
    rw [h.letter x hx]
    rfl
  sign := h.sign
  exponent := h.exponent

/-- Zeros behind the last digit do not count. -/
theorem value_append_zeros {zeros : Bytes} (hzeros : ∀ b ∈ zeros, (b == Byte.zero) = true)
    (digits : Bytes) (power : Int) (count : Nat) :
    (Bytes.digitsValue (digits ++ zeros) : ℚ) * 10 ^ (power - (count + zeros.length : Nat)) =
      Bytes.digitsValue digits * 10 ^ (power - count) := by
  rw [Bytes.digitsValue_append, Bytes.digitsValue_zeros hzeros, add_zero]
  push_cast
  rw [mul_assoc, ← zpow_natCast, ← zpow_add₀ (by norm_num : (10 : ℚ) ≠ 0)]
  congr 2
  omega

theorem Shows.value_kept (h : Shows text y whole decimals e) :
    (Bytes.digitsValue (whole ++ kept decimals) : ℚ) *
      10 ^ (powerOf e - (kept decimals).length) = y := by
  obtain ⟨zeros, hsplit, hzeros⟩ := Bytes.dropTrailing_append (· == Byte.zero) decimals
  have hvalue := h.value
  rw [← value_append_zeros hzeros (whole ++ kept decimals) (powerOf e) (kept decimals).length]
  rw [hsplit, ← List.append_assoc, List.length_append] at hvalue
  exact hvalue

/-- The number of the numeral is the double nearest to what the text stands for. -/
theorem Shows.numeral_value (h : Shows text y whole decimals e) (negative : Bool) :
    ∃ digits : Nat, ∃ power : Int, (digits : ℚ) * 10 ^ power = y ∧
      (Numeral.mk negative whole (shownFraction decimals e) e).value =
        .double (.ofDecimal negative digits power) := by
  have hvalue := h.value_kept
  by_cases hkept : kept decimals = []
  · cases e with
    | none =>
      have hzero : ∀ b ∈ [Byte.zero], (b == Byte.zero) = true := List.forall_mem_singleton.mpr rfl
      have hshift := value_append_zeros hzero whole (powerOf none) 0
      rw [hkept, List.append_nil] at hvalue
      refine ⟨Bytes.digitsValue (whole ++ [Byte.zero]), powerOf none - 1, ?_, ?_⟩
      · rw [← hvalue]
        exact hshift
      · simp [Numeral.value, shownFraction, hkept, powerOf]
    | some x =>
      refine ⟨_, _, hvalue, ?_⟩
      simp [Numeral.value, shownFraction, hkept, powerOf]
  · refine ⟨_, _, hvalue, ?_⟩
    cases e with
    | none => simp [Numeral.value, shownFraction, hkept, powerOf]
    | some x => simp [Numeral.value, shownFraction, hkept, powerOf]

/-- The bytes that show that a number is no integer. -/
def marksDouble (b : UInt8) : Bool := b == Byte.dot || b == 0x65

theorem digit_marks_nothing : ∀ b, Byte.isDigit b = true → marksDouble b = false := by
  exact Byte.forall_of_lt (by decide +kernel)

theorem doubleText_eq {x : Binary64} (hx : x.isFinite) : Number.doubleText x =
    if x.text.any marksDouble then x.text else x.text ++ [Byte.dot, Byte.zero] := by
  rw [Number.doubleText, if_pos hx]
  rfl

theorem Shows.doubleText (h : Shows text y whole decimals e) {x : Binary64} (hx : x.isFinite)
    (htext : x.text = (if x.isNegative then [Byte.minus] else []) ++ text) :
    Number.doubleText x =
      (Numeral.mk x.isNegative whole (shownFraction decimals e) e).text := by
  rw [h.text_eq, fractionText_eq] at htext
  rw [doubleText_eq hx, Numeral.text_eq]
  by_cases hkept : kept decimals = []
  · cases e with
    | none =>
      have hany : x.text.any marksDouble = false := by
        rw [htext, List.any_eq_false]
        intro b hb
        simp only [hkept, if_true, Numeral.exponentText, List.append_nil, List.mem_append] at hb
        rcases hb with hb | hb
        · split at hb
          · rw [List.mem_singleton.mp hb]
            decide
          · exact absurd hb List.not_mem_nil
        · rw [digit_marks_nothing b (h.digits.2 b hb)]
          decide
      rw [hany, htext]
      simp [shownFraction, hkept, Numeral.fractionText, Numeral.exponentText]
    | some z =>
      have hany : x.text.any marksDouble = true := by
        rw [htext, List.any_eq_true]
        refine ⟨z.letter, ?_, by rw [h.letter z rfl]; rfl⟩
        simp [Numeral.exponentText, Exponent.text]
      rw [hany, htext]
      simp [shownFraction, hkept, Numeral.fractionText]
  · have hany : x.text.any marksDouble = true := by
      rw [htext, List.any_eq_true]
      exact ⟨Byte.dot, by simp [hkept], rfl⟩
    rw [hany, htext]
    simp [shownFraction, hkept, Numeral.fractionText]

/-! ## The three forms -/

theorem digitsValue_padStart (width n : Nat) :
    Bytes.digitsValue (Bytes.padStart width Byte.zero (Bytes.ofNat n)) = n := by
  rw [Bytes.padStart, Bytes.digitsValue_append, Bytes.digitsValue_ofNat, Bytes.digitsValue_zeros]
  · rw [Nat.zero_mul, Nat.zero_add]
  · intro b hb
    rw [List.eq_of_mem_replicate hb]
    rfl

theorem digits_padStart (width n : Nat) :
    Digits (Bytes.padStart width Byte.zero (Bytes.ofNat n)) := by
  refine ⟨by simp [Bytes.padStart, Bytes.ofNat_ne_nil], fun b hb => ?_⟩
  rcases List.mem_append.mp hb with hb | hb
  · rw [List.eq_of_mem_replicate hb]
    rfl
  · exact Bytes.ofNat_digits n b hb

/-- The exponent as it is written. -/
def exponentOf (power : Int) : Exponent :=
  ⟨0x65, some (if power < 0 then Byte.minus else Byte.plus),
    Bytes.padStart 2 Byte.zero (Bytes.ofNat power.natAbs)⟩

theorem value_exponentOf (power : Int) : (exponentOf power).value = power := by
  rw [Exponent.value, exponentOf, digitsValue_padStart]
  by_cases h : power < 0
  · simp only [h, if_true]
    omega
  · rw [if_neg (by simp [h]; decide)]
    omega

section Forms

variable {value : Nat} {power : Int} (hlow : 10 ^ 16 ≤ value) (hhigh : value < 10 ^ 17)

include hlow hhigh

/-- Seventeen digits, cut behind so many of them. -/
theorem digits_take (count : Nat) (hcount : count < 17) :
    Digits ((Bytes.ofNat value).take (count + 1)) ∧
      ((Bytes.ofNat value).take (count + 1)).head? ≠ some Byte.zero ∧
      (∀ b ∈ (Bytes.ofNat value).drop (count + 1), Byte.isDigit b = true) ∧
      ((Bytes.ofNat value).drop (count + 1)).length = 16 - count := by
  obtain ⟨b, rest, hb, hne⟩ := Bytes.ofNat_head (n := value) (by omega)
  have hdigits := Bytes.ofNat_digits value
  refine ⟨⟨by simp [hb], fun c hc => hdigits c (List.mem_of_mem_take hc)⟩, by simpa [hb] using hne,
    fun c hc => hdigits c (List.mem_of_mem_drop hc), ?_⟩
  rw [List.length_drop, Bytes.length_ofNat hlow hhigh]
  omega

theorem shows_scientific :
    Shows ((Bytes.ofNat value).take 1 ++ fractionText ((Bytes.ofNat value).drop 1) ++
      exponentText power) (value * 10 ^ (power - 16)) ((Bytes.ofNat value).take 1)
      ((Bytes.ofNat value).drop 1) (some (exponentOf power)) := by
  obtain ⟨hdigits, hzero, hdecimal, hlength⟩ := digits_take hlow hhigh 0 (by decide)
  refine ⟨rfl, hdigits, fun h => absurd h hzero, hdecimal, ?_, ?_, ?_, ?_⟩
  · rintro x ⟨⟩
    rfl
  · rintro x ⟨⟩ s hs
    cases hs
    split <;> rfl
  · rintro x ⟨⟩
    exact digits_padStart _ _
  · rw [List.take_append_drop, Bytes.digitsValue_ofNat, powerOf, value_exponentOf, hlength]
    rfl

theorem shows_positional (hpower : 0 ≤ power) (hbelow : power < 17) :
    Shows ((Bytes.ofNat value).take (power.toNat + 1) ++
        fractionText ((Bytes.ofNat value).drop (power.toNat + 1)))
      (value * 10 ^ (power - 16)) ((Bytes.ofNat value).take (power.toNat + 1))
      ((Bytes.ofNat value).drop (power.toNat + 1)) none := by
  obtain ⟨hdigits, hzero, hdecimal, hlength⟩ := digits_take hlow hhigh power.toNat (by omega)
  refine ⟨(List.append_nil _).symm, hdigits, fun h => absurd h hzero, hdecimal, nofun,
    nofun, nofun, ?_⟩
  rw [List.take_append_drop, Bytes.digitsValue_ofNat, powerOf, hlength]
  congr 2
  omega

theorem shows_small (hpower : power < 0) :
    Shows (Byte.zero ::
        fractionText (List.replicate (-power - 1).toNat Byte.zero ++ Bytes.ofNat value))
      (value * 10 ^ (power - 16)) [Byte.zero]
      (List.replicate (-power - 1).toNat Byte.zero ++ Bytes.ofNat value) none := by
  refine ⟨(List.append_nil _).symm, Numeral.digits_zero, fun _ => le_refl _, ?_, nofun,
    nofun, nofun, ?_⟩
  · intro b hb
    rcases List.mem_append.mp hb with hb | hb
    · rw [List.eq_of_mem_replicate hb]
      rfl
    · exact Bytes.ofNat_digits value b hb
  · have hzeros : ∀ b ∈ [Byte.zero] ++ List.replicate (-power - 1).toNat Byte.zero,
        (b == Byte.zero) = true := by
      intro b hb
      rcases List.mem_append.mp hb with hb | hb
      · rw [List.mem_singleton.mp hb]
        rfl
      · rw [List.eq_of_mem_replicate hb]
        rfl
    rw [← List.append_assoc, Bytes.digitsValue_append, Bytes.digitsValue_zeros hzeros, Nat.zero_mul,
      Nat.zero_add, Bytes.digitsValue_ofNat, powerOf, List.length_append, List.length_replicate,
      Bytes.length_ofNat hlow hhigh]
    congr 2
    omega

end Forms

/-- The text of a positive number shows seventeen digits of it. -/
theorem shows_positiveText {num den : Nat} (hnum : 0 < num) (hden : 0 < den) :
    ∃ y whole decimals e, Shows (positiveText num den) y whole decimals e ∧
      Close y ((num : ℚ) / den) := by
  obtain ⟨hlow, hhigh, hclose⟩ := significant_spec hnum hden
  unfold positiveText
  generalize significant num den = found at hlow hhigh hclose ⊢
  obtain ⟨value, power⟩ := found
  dsimp only at hlow hhigh hclose ⊢
  split
  · exact ⟨_, _, _, _, shows_scientific hlow hhigh, hclose⟩
  · next h =>
    have hbelow : power < 17 := by
      simp only [precision] at h
      omega
    split
    · next hneg => exact ⟨_, _, _, _, shows_small hlow hhigh hneg, hclose⟩
    · next hneg => exact ⟨_, _, _, _, shows_positional hlow hhigh (by omega) hbelow, hclose⟩

theorem shows_zero : Shows [Byte.zero] 0 [Byte.zero] [] none where
  text_eq := rfl
  digits := Numeral.digits_zero
  noZero := fun _ => le_refl _
  decimal := nofun
  letter := nofun
  sign := nofun
  exponent := nofun
  value := by
    rw [List.append_nil, Bytes.digitsValue_zeros (List.forall_mem_singleton.mpr rfl)]
    simp

/-! ## Whole texts -/

theorem text_of_zero {x : Binary64} (hu : x.scaled.1 = 0) :
    x.text = (if x.isNegative then [Byte.minus] else []) ++ [Byte.zero] := by
  have hnum : x.ratio.1 = 0 := by
    unfold ratio
    dsimp only
    split
    · exact (congrArg (· * _) hu).trans (Nat.zero_mul _)
    · exact hu
  simp [text, hnum]

theorem text_of_pos {x : Binary64} (hnum : 0 < x.ratio.1) :
    x.text = (if x.isNegative then [Byte.minus] else []) ++ positiveText x.ratio.1 x.ratio.2 := by
  simp [text, hnum.ne']

/-- The text of a finite double is that of a numeral for the double. -/
theorem exists_numeral {x : Binary64} (hx : x.isFinite) : ∃ n : Numeral, n.WellFormed ∧
    n.text = Number.doubleText x ∧ n.value = .double x := by
  by_cases hu : x.scaled.1 = 0
  · refine ⟨_, shows_zero.wellFormed x.isNegative,
      (shows_zero.doubleText hx (text_of_zero hu)).symm, ?_⟩
    obtain ⟨hmagnitude, -, -, -, hnormal⟩ := parts hx
    have hzero : x.magnitude = 0 := by
      rw [hmagnitude, hu, hnormal.resolve_right (by rw [hu]; decide)]
      rfl
    have hvalue : ofMagnitude x.isNegative 0 = x := by rw [← hzero, ofMagnitude_magnitude]
    exact congrArg Number.double hvalue
  · obtain ⟨hden, hratio⟩ := ratio_spec x
    have hpos : 0 < x.absValue := lt_of_lt_of_le (by positivity) (le_absValue hx hu)
    have hnum : 0 < x.ratio.1 := by
      rcases Nat.eq_zero_or_pos x.ratio.1 with h | h
      · simp [← hratio, h] at hpos
      · exact h
    obtain ⟨y, whole, decimals, e, hshows, hclose⟩ := shows_positiveText hnum hden
    obtain ⟨digits, power, hy, hvalue⟩ := hshows.numeral_value x.isNegative
    refine ⟨_, hshows.wellFormed x.isNegative, (hshows.doubleText hx (text_of_pos hnum)).symm, ?_⟩
    rw [hratio, ← hy] at hclose
    rw [hvalue, ofDecimal_of_close hx hu hclose]

end Binary64

end ShapeTraits
