-- Integers in equality and in text. The text of an integer is its own, and integers of
-- one form are equal if they are the same. Those of different forms are equal if they
-- have the same nearest double, and above the whole numbers that doubles hold that
-- makes different integers equal.
import ShapeTraits.Proofs.Overflow
import ShapeTraits.Proofs.ValueMatching

namespace ShapeTraits

/-! ## Integers and their text -/

theorem Bytes.integer_ofInt (k : Int) : (Bytes.ofInt k).integer = k := by
  rw [← Numeral.text_ofInt, Numeral.integer_text (Numeral.wellFormed_ofInt k) rfl rfl,
    Number.signed, Numeral.ofInt, Bytes.digitsValue_ofNat]
  simp only [decide_eq_true_eq]
  split <;> omega

namespace Number

/-- The whole number that an integer denotes. -/
def integer? : Number → Option Int
  | int64 v => some v.toInt
  | uint64 v => some v.toNat
  | double _ => none

/-- An integer of the form that has a sign. -/
def isSigned : Number → Bool
  | int64 _ => true
  | _ => false

/-- Different integers of different forms that have the same nearest double. -/
structure Merges (x y : Number) : Prop where
  integers : x.integer? ≠ y.integer?
  forms : x.isSigned ≠ y.isSigned
  doubles : x.toBinary64 = y.toBinary64

variable {x y : Number} {k j : Int}

theorem exists_integer (h : x.isInteger = true) : ∃ k, x.integer? = some k := by
  cases x with
  | double v => cases h
  | _ => exact ⟨_, rfl⟩

theorem text_of_integer (h : x.integer? = some k) : x.text = Bytes.ofInt k := by
  cases x with
  | int64 v =>
    cases h
    rfl
  | uint64 v =>
    cases h
    rw [Bytes.ofInt, if_neg (Int.not_lt.mpr (Int.natCast_nonneg _))]
    rfl
  | double v => cases h

theorem toBinary64_of_integer (h : x.integer? = some k) : x.toBinary64 = .ofInt k := by
  cases x with
  | double v => cases h
  | _ =>
    cases h
    rfl

theorem text_eq_iff (hx : x.isInteger = true) (hy : y.isInteger = true) :
    x.text = y.text ↔ x.integer? = y.integer? := by
  obtain ⟨k, hk⟩ := exists_integer hx
  obtain ⟨j, hj⟩ := exists_integer hy
  rw [text_of_integer hk, text_of_integer hj, hk, hj, Option.some.injEq]
  refine ⟨fun h => ?_, congrArg Bytes.ofInt⟩
  rw [← Bytes.integer_ofInt k, h, Bytes.integer_ofInt]

end Number

/-! ## Integers and their doubles -/

namespace Binary64

/-- The value of a finite double. -/
def value (x : Binary64) : ℚ := if x.isNegative then -x.absValue else x.absValue

theorem isNegative_ofMagnitude (negative : Bool) {k : Nat} (hk : k ≤ infinity) :
    (ofMagnitude negative k).isNegative = negative := by
  unfold infinity at hk
  unfold isNegative ofMagnitude signBit
  cases negative
  · simp only [Bool.false_eq_true, if_false, UInt64.toNat_ofNat', decide_eq_false_iff_not]
    omega
  · simp only [if_true, UInt64.toNat_ofNat', decide_eq_true_iff]
    omega

theorem exists_magnitude (negative : Bool) (num den : Nat) :
    ∃ k, k ≤ infinity ∧ ofRatio negative num den = ofMagnitude negative k := by
  by_cases hnum : num = 0
  · exact ⟨0, Nat.zero_le _, by rw [ofRatio, if_pos hnum]⟩
  · exact ⟨_, Nat.min_le_right _ _, ofRatio_eq negative hnum⟩

theorem isNegative_ofInt (n : Int) : (ofInt n).isNegative = decide (n < 0) := by
  obtain ⟨k, hk, heq⟩ := exists_magnitude (n < 0) n.natAbs 1
  rw [ofInt, heq, isNegative_ofMagnitude _ hk]

theorem isNaN_ofInt (n : Int) : (ofInt n).isNaN = false := by
  obtain ⟨k, hk, heq⟩ := exists_magnitude (n < 0) n.natAbs 1
  rw [ofInt, heq, isNaN, magnitude_ofMagnitude _ hk, decide_eq_false_iff_not]
  exact Nat.not_lt.mpr hk

/-- No whole number but zero is rounded to zero. -/
theorem eq_zero_of_magnitude {n : Int} (h : (ofInt n).magnitude = 0) : n = 0 := by
  by_contra hne
  have hpos : 0 < n.natAbs := Int.natAbs_pos.mpr hne
  obtain ⟨-, hhigh⟩ := floorLog2_spec hpos Nat.one_pos
  rw [ofInt, ofRatio_eq _ hpos.ne', magnitude_ofMagnitude _ (Nat.min_le_right _ _)] at h
  generalize floorLog2 n.natAbs 1 = f at hhigh h
  have hone : (1 : ℚ) ≤ n.natAbs := by exact_mod_cast hpos
  have hf : 0 < f + 1 := by
    rw [← zpow_lt_zpow_iff_right₀ (a := (2 : ℚ)) one_lt_two, zpow_zero]
    push_cast at hhigh
    linarith
  unfold fractions infinity at h
  omega

/-- No double of a whole number is the negative zero or a NaN. -/
theorem equal_ofInt (n m : Int) : (ofInt n).equal (ofInt m) = true ↔ ofInt n = ofInt m := by
  rw [equal, isNaN_ofInt, isNaN_ofInt]
  simp only [Bool.not_false, Bool.true_and, Bool.or_eq_true, Bool.and_eq_true, beq_iff_eq]
  refine or_iff_left_of_imp fun hzero => ?_
  rw [eq_zero_of_magnitude hzero.1, eq_zero_of_magnitude hzero.2]

/-- The fields of a double show its units and power. -/
theorem scaled_ofMagnitude (negative : Bool) {u : Nat} {q : Int} (hlow : 2 ^ 52 ≤ u)
    (hhigh : u < 2 ^ 53) (hq : -1074 ≤ q) (hq' : q ≤ 971) :
    (ofMagnitude negative ((q + 1074).toNat * fractions + u)).scaled = (u, q) := by
  have hle : (q + 1074).toNat * fractions + u ≤ infinity := by
    unfold fractions infinity
    omega
  unfold scaled
  rw [magnitude_ofMagnitude negative hle]
  have hdiv : ((q + 1074).toNat * fractions + u) / fractions = (q + 1074).toNat + 1 := by
    unfold fractions
    omega
  have hmod : ((q + 1074).toNat * fractions + u) % fractions = u - fractions := by
    unfold fractions
    omega
  rw [hdiv, hmod]
  dsimp only
  rw [if_neg (Nat.succ_ne_zero _), Prod.mk.injEq]
  unfold fractions
  omega

/-- A whole number below the limit is one of fifty-three bits in a unit. -/
theorem exists_units {n : Nat} (hpos : 0 < n) (hn : n ≤ 2 ^ 53) : ∃ (u : Nat) (q : Int),
    2 ^ 52 ≤ u ∧ u < 2 ^ 53 ∧ -1074 ≤ q ∧ q ≤ 971 ∧ (n : ℚ) = u * 2 ^ q := by
  rcases Nat.eq_or_lt_of_le hn with rfl | hlt
  · exact ⟨2 ^ 52, 1, le_rfl, by decide, by decide, by decide, by norm_num⟩
  have hlow : 2 ^ n.log2 ≤ n := Nat.log2_self_le hpos.ne'
  have hhigh : n < 2 ^ (n.log2 + 1) := Nat.lt_log2_self
  have hlog : n.log2 < 53 := (Nat.pow_lt_pow_iff_right (by decide)).mp (Nat.lt_of_le_of_lt hlow hlt)
  obtain ⟨j, hj⟩ : ∃ j, 52 = n.log2 + j := Nat.exists_eq_add_of_le (Nat.le_of_lt_succ hlog)
  refine ⟨n * 2 ^ j, -j, ?_, ?_, by omega, by omega, ?_⟩
  · calc 2 ^ 52 = 2 ^ n.log2 * 2 ^ j := by rw [hj, Nat.pow_add]
      _ ≤ n * 2 ^ j := Nat.mul_le_mul_right _ hlow
  · calc n * 2 ^ j < 2 ^ (n.log2 + 1) * 2 ^ j :=
        Nat.mul_lt_mul_of_pos_right hhigh (Nat.two_pow_pos j)
      _ = 2 ^ 53 := by rw [← Nat.pow_add, Nat.add_right_comm, ← hj]
  · rw [zpow_neg, zpow_natCast]
    push_cast
    field_simp

theorem absValue_ofRatio (negative : Bool) {n : Nat} (hn : n ≤ 2 ^ 53) :
    (ofRatio negative n 1).absValue = n := by
  rcases Nat.eq_zero_or_pos n with rfl | hpos
  · have hmagnitude := magnitude_ofMagnitude negative (Nat.zero_le infinity)
    rw [ofRatio, if_pos rfl, absValue, scaled, hmagnitude]
    simp
  obtain ⟨u, q, hlow, hhigh, hq, hq', hvalue⟩ := exists_units hpos hn
  have hfinite : (q + 1074).toNat * fractions + u < infinity := by
    unfold fractions infinity
    omega
  have hclose : Close ((n : ℚ) / (1 : Nat)) (u * 2 ^ q) := by
    rw [Nat.cast_one, div_one, hvalue, Close, sub_self, abs_zero, zero_mul]
    positivity
  rw [ofRatio_of_close negative Nat.one_pos (by omega) hhigh hq (.inr hlow) hfinite hclose,
    absValue, scaled_ofMagnitude negative hlow hhigh hq hq', hvalue]

/-- Doubles hold the whole numbers up to this one. -/
theorem value_ofInt {n : Int} (hn : n.natAbs ≤ 2 ^ 53) : (ofInt n).value = n := by
  rw [value, isNegative_ofInt, ofInt, absValue_ofRatio _ hn, Nat.cast_natAbs]
  by_cases h : n < 0
  · simp [h, abs_of_neg h]
  · simp [h, abs_of_nonneg (Int.not_lt.mp h)]

end Binary64

/-! ## Which integers are equal -/

namespace Number

variable {x y : Number} {k j : Int}

theorem equal_of_forms (hx : x.integer? = some k) (hy : y.integer? = some j)
    (h : x.isSigned = y.isSigned) :
    x.equal y = true ↔ k = j := by
  cases x with
  | int64 v =>
    cases y with
    | int64 w =>
      cases hx
      cases hy
      rw [equal, beq_iff_eq, Int64.toInt_inj]
    | _ => cases h
  | uint64 v =>
    cases y with
    | uint64 w =>
      cases hx
      cases hy
      rw [equal, beq_iff_eq, Int.natCast_inj, UInt64.toNat_inj]
    | int64 w => cases h
    | double w => cases hy
  | double v => cases hx

theorem equal_of_mixed_forms (hx : x.integer? = some k) (hy : y.integer? = some j)
    (h : x.isSigned ≠ y.isSigned) : x.equal y = true ↔ x.toBinary64 = y.toBinary64 := by
  have hequal : x.equal y = x.toBinary64.equal y.toBinary64 := by
    cases x <;> cases y <;> first | rfl | exact absurd rfl h
  rw [hequal, toBinary64_of_integer hx, toBinary64_of_integer hy, Binary64.equal_ofInt]

theorem equal_iff (hx : x.isInteger = true) (hy : y.isInteger = true) :
    x.equal y = true ↔ x.integer? = y.integer? ∨ x.Merges y := by
  obtain ⟨k, hk⟩ := exists_integer hx
  obtain ⟨j, hj⟩ := exists_integer hy
  by_cases hforms : x.isSigned = y.isSigned
  · rw [equal_of_forms hk hj hforms, or_iff_left fun h => h.forms hforms, hk, hj, Option.some.injEq]
  rw [equal_of_mixed_forms hk hj hforms]
  constructor
  · intro hdoubles
    by_cases hsame : x.integer? = y.integer?
    · exact .inl hsame
    · exact .inr ⟨hsame, hforms, hdoubles⟩
  · rintro (hsame | hmerges)
    · rw [hk, hj, Option.some.injEq] at hsame
      rw [toBinary64_of_integer hk, toBinary64_of_integer hj, hsame]
    · exact hmerges.doubles

theorem nonneg_of_unsigned (hx : x.integer? = some k) (h : x.isSigned = false) : 0 ≤ k := by
  cases x with
  | int64 v => cases h
  | uint64 v =>
    cases hx
    exact Int.natCast_nonneg _
  | double v => cases hx

/-- Only above the whole numbers that doubles hold do integers merge. -/
theorem Merges.large (h : x.Merges y) (hx : x.integer? = some k) (hy : y.integer? = some j) :
    2 ^ 53 < max k j := by
  have hdoubles := h.doubles
  rw [toBinary64_of_integer hx, toBinary64_of_integer hy] at hdoubles
  -- One of them has no sign, and the other has the same.
  have hsign : k < 0 ↔ j < 0 := by
    have hnegative := congrArg Binary64.isNegative hdoubles
    rwa [Binary64.isNegative_ofInt, Binary64.isNegative_ofInt, decide_eq_decide] at hnegative
  have hnonneg : 0 ≤ k ∨ 0 ≤ j := by
    cases hsigned : x.isSigned with
    | false => exact .inl (nonneg_of_unsigned hx hsigned)
    | true =>
      have hother : y.isSigned = false :=
        Bool.eq_false_iff.mpr fun hy => h.forms (hsigned.trans hy.symm)
      exact .inr (nonneg_of_unsigned hy hother)
  by_contra hsmall
  have hvalue := congrArg Binary64.value hdoubles
  rw [Binary64.value_ofInt (by omega), Binary64.value_ofInt (by omega), Int.cast_inj] at hvalue
  exact h.integers (by rw [hx, hy, hvalue])

end Number

namespace Node

/-! ## The laws -/

/-- Of values whose numbers are integers, the texts are the same exactly if the shapes and
the integers are. For equality integers of different forms need only have the same
nearest double, which makes a difference only above the whole numbers that doubles hold. -/
theorem integers_are_equal_by_their_text_unless_they_merge {a b : Node}
    (ha : ∀ x ∈ a.numbers, x.isInteger = true) (hb : ∀ x ∈ b.numbers, x.isInteger = true) :
    (a.text = b.text ↔ Matches (fun x y => x.integer? = y.integer?) a b) ∧
      (a.equal b = true ↔ Matches (fun x y => x.integer? = y.integer? ∨ x.Merges y) a b) ∧
      ((∀ x ∈ a.numbers, ∀ y ∈ b.numbers, ¬x.Merges y) → (a.equal b = true ↔ a.text = b.text)) ∧
      ∀ x y : Number, x.Merges y → ∀ k j, x.integer? = some k → y.integer? = some j →
        2 ^ 53 < max k j := by
  have hwritten {n : Node} (h : ∀ x ∈ n.numbers, x.isInteger = true) :
      ∀ x ∈ n.numbers, x.IsWritten := by
    intro x hx
    apply Number.isWritten_of_finite
    rintro v rfl
    cases h _ hx
  have htext : a.text = b.text ↔ Matches (fun x y => x.integer? = y.integer?) a b := by
    rw [text, text, write_eq_iff (hwritten ha) (hwritten hb)]
    exact matches_congr fun x hx y hy => Number.text_eq_iff (ha x hx) (hb y hy)
  have hequal : a.equal b = true ↔
      Matches (fun x y => x.integer? = y.integer? ∨ x.Merges y) a b := by
    rw [equal_iff]
    exact matches_congr fun x hx y hy => Number.equal_iff (ha x hx) (hb y hy)
  refine ⟨htext, hequal, fun hmerges => ?_, fun x y h k j hk hj => h.large hk hj⟩
  rw [hequal, htext]
  exact matches_congr fun x hx y hy => or_iff_left (hmerges x hx y hy)

/-- One is one in both forms, also behind a string in an array. -/
theorem one_is_equal_in_both_forms :
    let a : Node := .array .nowhere [.string .nowhere (utf8 "1"), .number .nowhere (.int64 1)]
    let b : Node := .array .nowhere [.string .nowhere (utf8 "1"), .number .nowhere (.uint64 1)]
    (∀ x ∈ a.numbers, x.isInteger = true) ∧ (∀ x ∈ b.numbers, x.isInteger = true) ∧
      a.text = b.text ∧ a.equal b = true := by
  intro a b
  have ha : ∀ x ∈ a.numbers, x.isInteger = true := List.forall_mem_singleton.mpr rfl
  have hb : ∀ x ∈ b.numbers, x.isInteger = true := List.forall_mem_singleton.mpr rfl
  have hlaw := integers_are_equal_by_their_text_unless_they_merge ha hb
  have hone : Number.integer? (.int64 1) = Number.integer? (.uint64 1) := by decide
  exact ⟨ha, hb, hlaw.1.mpr ⟨rfl, .cons hone .nil⟩, hlaw.2.1.mpr ⟨rfl, .cons (.inl hone) .nil⟩⟩

/-- The largest signed integer and the next one, which only has an unsigned form, are
equal, and their texts differ. -/
theorem the_largest_signed_integer_equals_the_next :
    let a : Node := .number .nowhere (.int64 9223372036854775807)
    let b : Node := .number .nowhere (.uint64 9223372036854775808)
    (∀ x ∈ a.numbers, x.isInteger = true) ∧ (∀ x ∈ b.numbers, x.isInteger = true) ∧
      ¬(a.equal b = true ↔ a.text = b.text) := by
  intro a b
  have htext : a.text ≠ b.text := by decide +kernel
  have hequal : a.equal b = true := by decide +kernel
  refine ⟨List.forall_mem_singleton.mpr rfl, List.forall_mem_singleton.mpr rfl, fun h => ?_⟩
  exact htext (h.mp hequal)

end Node

end ShapeTraits
