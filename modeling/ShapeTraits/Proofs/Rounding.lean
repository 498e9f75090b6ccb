-- Rounding to doubles. What is closer to a double than to the middle between it
-- and its neighbours is rounded to it, and seventeen digits are that close.
import Mathlib.Algebra.Order.Field.Power
import Mathlib.Tactic.FieldSimp
import Mathlib.Tactic.Linarith
import Mathlib.Tactic.Positivity
import Mathlib.Tactic.Ring
import ShapeTraits.Proofs.Numerals

namespace ShapeTraits

/-! ## Nearest whole numbers -/

theorem roundQuotient_close (num : Nat) {den : Nat} (hden : 0 < den) :
    |(roundQuotient num den : ℚ) - num / den| ≤ 1 / 2 := by
  have hpos : (0 : ℚ) < den := by exact_mod_cast hden
  have hsplit : (num : ℚ) = den * (num / den : Nat) + (num % den : Nat) := by
    exact_mod_cast (Nat.div_add_mod num den).symm
  have hquotient : (num : ℚ) / den - (num / den : Nat) = (num % den : Nat) / (den : ℚ) := by
    field_simp
    linarith
  have hrem : ((num % den : Nat) : ℚ) ≤ den := by exact_mod_cast (Nat.mod_lt num hden).le
  have hle : ((num % den : Nat) : ℚ) / den ≤ 1 := (div_le_one hpos).mpr hrem
  have hnonneg : (0 : ℚ) ≤ ((num % den : Nat) : ℚ) / den := by positivity
  rw [roundQuotient, abs_le]
  split
  · next h =>
    have hhalf : (1 : ℚ) / 2 ≤ ((num % den : Nat) : ℚ) / den := by
      rw [div_le_div_iff₀ two_pos hpos]
      exact_mod_cast (by omega : 1 * den ≤ num % den * 2)
    push_cast
    constructor <;> linarith
  · next h =>
    have hhalf : ((num % den : Nat) : ℚ) / den ≤ 1 / 2 := by
      rw [div_le_div_iff₀ hpos two_pos]
      exact_mod_cast (by omega : num % den * 2 ≤ 1 * den)
    constructor <;> linarith

theorem natCast_eq_of_close {k u : Nat} {x : ℚ} (hk : |(k : ℚ) - x| ≤ 1 / 2)
    (hu : |x - u| < 1 / 2) : k = u := by
  rw [abs_le] at hk
  rw [abs_lt] at hu
  have hlt : (k : ℚ) < u + 1 := by linarith
  have hgt : (u : ℚ) < k + 1 := by linarith
  have : k < u + 1 := by exact_mod_cast hlt
  have : u < k + 1 := by exact_mod_cast hgt
  omega

/-- A quotient in units of a power, rounded. -/
def roundAt (base num den : Nat) (power : Int) : Nat :=
  if 0 ≤ power then roundQuotient num (den * Nat.pow base power.toNat)
  else roundQuotient (num * Nat.pow base (-power).toNat) den

theorem roundAt_close {base den : Nat} (num : Nat) (hbase : 0 < base) (hden : 0 < den)
    (power : Int) :
    |(roundAt base num den power : ℚ) - num / den / (base : ℚ) ^ power| ≤ 1 / 2 := by
  have hb : (0 : ℚ) < base := by exact_mod_cast hbase
  unfold roundAt
  split
  · next h =>
    obtain ⟨k, rfl⟩ := Int.eq_ofNat_of_zero_le h
    have hclose := roundQuotient_close num (Nat.mul_pos hden (Nat.pow_pos hbase : 0 < base ^ k))
    rw [zpow_natCast, div_div]
    push_cast at hclose
    exact hclose
  · next h =>
    obtain ⟨k, rfl⟩ : ∃ k : Nat, power = -k := ⟨(-power).toNat, by omega⟩
    have hclose := roundQuotient_close (num * base ^ k) hden
    rw [zpow_neg, zpow_natCast, div_inv_eq_mul, div_mul_eq_mul_div]
    push_cast at hclose
    simpa using hclose

/-! ## Logarithms -/

/-- A quotient is below a power exactly if it is in whole numbers. -/
theorem lt_zpow_iff {base den : Nat} (num : Nat) (hbase : 0 < base) (hden : 0 < den) (power : Int) :
    (num : ℚ) / den < (base : ℚ) ^ power ↔
      if 0 ≤ power then num < den * Nat.pow base power.toNat
      else num * Nat.pow base (-power).toNat < den := by
  have hd : (0 : ℚ) < den := by exact_mod_cast hden
  have hb : (0 : ℚ) < base := by exact_mod_cast hbase
  split
  · next h =>
    obtain ⟨k, rfl⟩ := Int.eq_ofNat_of_zero_le h
    rw [zpow_natCast, div_lt_iff₀ hd, mul_comm]
    have hcast : ((den * base ^ k : Nat) : ℚ) = den * (base : ℚ) ^ k := by push_cast; rfl
    rw [← hcast, Nat.cast_lt]
    rfl
  · next h =>
    obtain ⟨k, rfl⟩ : ∃ k : Nat, power = -k := ⟨(-power).toNat, by omega⟩
    rw [zpow_neg, zpow_natCast, div_lt_iff₀ hd, inv_mul_eq_div, lt_div_iff₀ (pow_pos hb k)]
    have hcast : ((num * base ^ k : Nat) : ℚ) = num * (base : ℚ) ^ k := by push_cast; rfl
    rw [← hcast, Nat.cast_lt]
    simp

theorem floorLog2_spec {num den : Nat} (hnum : 0 < num) (hden : 0 < den) :
    (2 : ℚ) ^ Binary64.floorLog2 num den ≤ num / den ∧
      (num : ℚ) / den < 2 ^ (Binary64.floorLog2 num den + 1) := by
  have hd : (0 : ℚ) < den := by exact_mod_cast hden
  have hnum1 : (2 : ℚ) ^ (num.log2 : Int) ≤ num := by
    rw [zpow_natCast]
    exact_mod_cast Nat.log2_self_le hnum.ne'
  have hnum2 : (num : ℚ) < 2 ^ ((num.log2 : Int) + 1) := by
    have : num < 2 ^ (num.log2 + 1) := Nat.lt_log2_self
    exact_mod_cast this
  have hden1 : (2 : ℚ) ^ (den.log2 : Int) ≤ den := by
    rw [zpow_natCast]
    exact_mod_cast Nat.log2_self_le hden.ne'
  have hden2 : (den : ℚ) < 2 ^ ((den.log2 : Int) + 1) := by
    have : den < 2 ^ (den.log2 + 1) := Nat.lt_log2_self
    exact_mod_cast this
  simp only [Binary64.floorLog2]
  generalize hguess : (num.log2 : Int) - den.log2 = guess
  have hlow : (2 : ℚ) ^ (guess - 1) ≤ num / den := by
    rw [le_div_iff₀ hd]
    calc (2 : ℚ) ^ (guess - 1) * den ≤ 2 ^ (guess - 1) * 2 ^ ((den.log2 : Int) + 1) := by gcongr
      _ = 2 ^ (num.log2 : Int) := by rw [← zpow_add₀ two_ne_zero]; congr 1; omega
      _ ≤ num := hnum1
  have hhigh : (num : ℚ) / den < 2 ^ (guess + 1) := by
    rw [div_lt_iff₀ hd]
    calc (num : ℚ) < 2 ^ ((num.log2 : Int) + 1) := hnum2
      _ = 2 ^ (guess + 1) * 2 ^ (den.log2 : Int) := by rw [← zpow_add₀ two_ne_zero]; congr 1; omega
      _ ≤ 2 ^ (guess + 1) * den := by gcongr
  have hbelow := lt_zpow_iff num two_pos hden guess
  push_cast at hbelow
  by_cases h : (num : ℚ) / den < 2 ^ guess
  · rw [if_pos (hbelow.mp h), sub_add_cancel]
    exact ⟨hlow, h⟩
  · rw [if_neg fun hn => h (hbelow.mpr hn)]
    exact ⟨not_lt.mp h, hhigh⟩

theorem decimalLength_spec {k : Nat} (hk : 0 < k) : ∃ j, Binary64.decimalLength k = j + 1 ∧
    10 ^ j ≤ k ∧ k < 10 ^ (j + 1) := by
  have hle := Bytes.pow_length_ofNat_le hk
  have hlt := Bytes.lt_pow_length_ofNat k
  obtain ⟨j, hj⟩ : ∃ j, (Bytes.ofNat k).length = j + 1 :=
    ⟨_, (Nat.succ_pred (by simpa using Bytes.ofNat_ne_nil k)).symm⟩
  rw [hj, Nat.pow_succ] at hle
  exact ⟨j, by rw [Binary64.decimalLength, if_neg hk.ne', hj], by omega, hj ▸ hlt⟩

theorem floorLog10_spec {num den : Nat} (hnum : 0 < num) (hden : 0 < den) :
    (10 : ℚ) ^ Binary64.floorLog10 num den ≤ num / den ∧
      (num : ℚ) / den < 10 ^ (Binary64.floorLog10 num den + 1) := by
  have hd : (0 : ℚ) < den := by exact_mod_cast hden
  unfold Binary64.floorLog10
  split
  · next h =>
    obtain ⟨j, hj, hle, hlt⟩ := decimalLength_spec (Nat.div_pos h hden)
    have hle' : 10 ^ j * den ≤ num := (Nat.le_div_iff_mul_le hden).mp hle
    have hlt' : num < 10 ^ (j + 1) * den := (Nat.div_lt_iff_lt_mul hden).mp hlt
    rw [hj, le_div_iff₀ hd, div_lt_iff₀ hd, Nat.cast_succ, add_sub_cancel_right]
    exact ⟨by exact_mod_cast hle', by exact_mod_cast hlt'⟩
  · next h =>
    have hone : 0 < (den - 1) / num := Nat.div_pos (by omega) hnum
    obtain ⟨j, hj, hle, hlt⟩ := decimalLength_spec hone
    have hle' : 10 ^ j * num < den := by
      have := (Nat.le_div_iff_mul_le hnum).mp hle
      omega
    have hlt' : den ≤ 10 ^ (j + 1) * num := by
      have := (Nat.div_lt_iff_lt_mul hnum).mp hlt
      omega
    rw [hj, zpow_neg, zpow_natCast, show -((j + 1 : Nat) : Int) + 1 = -(j : Int) by omega, zpow_neg,
      zpow_natCast]
    constructor
    · rw [inv_le_iff_one_le_mul₀ (by positivity), div_mul_eq_mul_div, le_div_iff₀ hd,
        one_mul, mul_comm]
      exact_mod_cast hlt'
    · rw [div_lt_iff₀ hd, inv_mul_eq_div, lt_div_iff₀ (by positivity), mul_comm]
      exact_mod_cast hle'

/-! ## Rounding to a double -/

namespace Binary64

/-- What is this close to a number is rounded like it. Seventeen digits are. -/
def Close (y x : ℚ) : Prop := |y - x| * (2 * 10 ^ 16) ≤ x

theorem ofRatio_eq {num den : Nat} (negative : Bool) (hnum : num ≠ 0) : ofRatio negative num den =
    ofMagnitude negative (min ((max (floorLog2 num den - 52) (-1074) + 1074).toNat * fractions +
      roundAt 2 num den (max (floorLog2 num den - 52) (-1074))) infinity) := by
  rw [ofRatio, if_neg hnum]
  rfl

section Near

variable {z : ℚ} {u : Nat}

theorem close_bounds (hz : |z - u| * (2 * 10 ^ 16) ≤ u) :
    (u : ℚ) - u / (2 * 10 ^ 16) ≤ z ∧ z ≤ u + u / (2 * 10 ^ 16) := by
  have h : |z - u| ≤ u / (2 * 10 ^ 16) := (le_div_iff₀ (by positivity)).mpr hz
  rw [abs_le] at h
  constructor <;> linarith

/-- The power of two below is that of the double, or at a power of two the next
lower one. -/
theorem power_of_close {g : Int} (hz : |z - u| * (2 * 10 ^ 16) ≤ u) (hu : u < 2 ^ 53)
    (hlow : (2 : ℚ) ^ g ≤ z) (hhigh : z < 2 ^ (g + 1)) :
    g ≤ 52 ∧ (g < 52 → 2 ^ 52 ≤ u → g = 51 ∧ u = 2 ^ 52) := by
  obtain ⟨hz1, hz2⟩ := close_bounds hz
  have hu' : (u : ℚ) ≤ 2 ^ 53 - 1 := by
    have : u + 1 ≤ 2 ^ 53 := hu
    have : (u : ℚ) + 1 ≤ 2 ^ 53 := by exact_mod_cast this
    linarith
  have htop : g < 53 := by
    rw [← zpow_lt_zpow_iff_right₀ (a := (2 : ℚ)) one_lt_two]
    have : (2 : ℚ) ^ (53 : Int) = 2 ^ 53 := by norm_cast
    rw [this]
    linarith
  refine ⟨by omega, fun hg hnormal => ?_⟩
  have hnormal' : (2 : ℚ) ^ 52 ≤ u := by exact_mod_cast hnormal
  have hbelow : z < 2 ^ 52 := by
    have h52 : (2 : ℚ) ^ (52 : Int) = 2 ^ 52 := by norm_cast
    rw [← h52]
    exact lt_of_lt_of_le hhigh (zpow_le_zpow_right₀ one_le_two (by omega))
  have hlast : u = 2 ^ 52 := by
    have hlt : (u : ℚ) < 2 ^ 52 + 1 := by linarith
    have : u < 2 ^ 52 + 1 := by exact_mod_cast hlt
    omega
  have hbottom : 51 < g + 1 := by
    rw [← zpow_lt_zpow_iff_right₀ (a := (2 : ℚ)) one_lt_two]
    have h51 : (2 : ℚ) ^ (51 : Int) = 2 ^ 51 := by norm_cast
    rw [h51]
    linarith
  exact ⟨by omega, hlast⟩

end Near

/-- At a power of two, in the units of the next lower power there are twice as many. -/
theorem roundAt_below {num den : Nat} {q : Int} (hden : 0 < den)
    (hz : |(num : ℚ) / den / 2 ^ q - (2 ^ 52 : Nat)| * (2 * 10 ^ 16) ≤ (2 ^ 52 : Nat)) :
    roundAt 2 num den (q - 1) = 2 ^ 53 := by
  refine natCast_eq_of_close (roundAt_close num two_pos hden (q - 1)) ?_
  have hdouble : (num : ℚ) / den / ((2 : Nat) : ℚ) ^ (q - 1) - ((2 ^ 53 : Nat) : ℚ) =
      2 * ((num : ℚ) / den / 2 ^ q - (2 ^ 52 : Nat)) := by
    push_cast
    rw [zpow_sub₀ two_ne_zero, zpow_one]
    field_simp
    ring
  rw [hdouble, abs_mul, abs_of_pos (two_pos : (0 : ℚ) < 2)]
  push_cast at hz ⊢
  linarith

theorem ofRatio_of_close {num den u : Nat} {q : Int} (negative : Bool) (hden : 0 < den) (hu : 0 < u)
    (hu' : u < 2 ^ 53) (hq : -1074 ≤ q) (hnormal : q = -1074 ∨ 2 ^ 52 ≤ u)
    (hfinite : (q + 1074).toNat * fractions + u < infinity)
    (hclose : Close ((num : ℚ) / den) (u * 2 ^ q)) :
    ofRatio negative num den = ofMagnitude negative ((q + 1074).toNat * fractions + u) := by
  have hP : (0 : ℚ) < 2 ^ q := by positivity
  have hupos : (0 : ℚ) < u := by exact_mod_cast hu
  have hz : |(num : ℚ) / den / 2 ^ q - u| * (2 * 10 ^ 16) ≤ u := by
    rw [Close] at hclose
    have hsplit : (num : ℚ) / den - u * 2 ^ q = ((num : ℚ) / den / 2 ^ q - u) * 2 ^ q := by
      rw [sub_mul, div_mul_cancel₀ _ hP.ne']
    rw [hsplit, abs_mul, abs_of_pos hP, mul_right_comm] at hclose
    exact le_of_mul_le_mul_right hclose hP
  have hy : (0 : ℚ) < (num : ℚ) / den := by
    have h1 := (close_bounds hz).1
    have : (0 : ℚ) < (num : ℚ) / den / 2 ^ q := by linarith
    rwa [div_pos_iff_of_pos_right hP] at this
  have hnum : 0 < num := by
    rcases Nat.eq_zero_or_pos num with h | h
    · simp [h] at hy
    · exact h
  obtain ⟨hlow, hhigh⟩ := floorLog2_spec hnum hden
  rw [ofRatio_eq negative hnum.ne']
  generalize floorLog2 num den = f at hlow hhigh ⊢
  have hlow' : (2 : ℚ) ^ (f - q) ≤ num / den / 2 ^ q := by
    rw [zpow_sub₀ two_ne_zero]
    gcongr
  have hhigh' : (num : ℚ) / den / 2 ^ q < 2 ^ (f - q + 1) := by
    rw [show f - q + 1 = f + 1 - q by omega, zpow_sub₀ two_ne_zero]
    gcongr
  obtain ⟨htop, hnext⟩ := power_of_close hz hu' hlow' hhigh'
  have hhalf : |(num : ℚ) / den / 2 ^ q - u| < 1 / 2 := by
    have : (u : ℚ) < 2 ^ 53 := by exact_mod_cast hu'
    linarith
  by_cases hpower : max (f - 52) (-1074) = q
  · have hunits : roundAt 2 num den q = u :=
      natCast_eq_of_close (roundAt_close num two_pos hden q) (by exact_mod_cast hhalf)
    rw [hpower, hunits, Nat.min_eq_left hfinite.le]
  · obtain ⟨hg, rfl⟩ := hnext (by omega) (by omega)
    have hpower' : max (f - 52) (-1074) = q - 1 := by omega
    have hsame : (q - 1 + 1074).toNat * fractions + 2 ^ 53 =
        (q + 1074).toNat * fractions + 2 ^ 52 := by
      have hq1 : (q + 1074).toNat = (q - 1 + 1074).toNat + 1 := by omega
      rw [hq1, fractions]
      omega
    rw [hpower', roundAt_below hden hz, hsame, Nat.min_eq_left hfinite.le]

end Binary64

/-! ## The value of a double -/

namespace Binary64

theorem ofMagnitude_magnitude (x : Binary64) : ofMagnitude x.isNegative x.magnitude = x := by
  have hlt : x.bits.toNat < 2 ^ 64 := x.bits.toNat_lt
  have hbits : (if x.isNegative = true then signBit else 0) + x.magnitude = x.bits.toNat := by
    unfold isNegative magnitude signBit
    split
    · next h =>
      have := of_decide_eq_true h
      omega
    · next h =>
      have : ¬ 0x8000000000000000 ≤ x.bits.toNat := fun hn => h (decide_eq_true hn)
      omega
  rw [ofMagnitude, hbits, UInt64.ofNat_toNat]

/-- The absolute value of a finite double. -/
def absValue (x : Binary64) : ℚ := x.scaled.1 * 2 ^ x.scaled.2

/-- The units and the power of a finite double. -/
structure Parts (x : Binary64) (u : Nat) (q : Int) : Prop where
  magnitude : x.magnitude = (q + 1074).toNat * fractions + u
  units : u < 2 ^ 53
  least : -1074 ≤ q
  greatest : q ≤ 971
  normal : q = -1074 ∨ 2 ^ 52 ≤ u

theorem parts {x : Binary64} (hx : x.isFinite) : Parts x x.scaled.1 x.scaled.2 := by
  have hfinite : x.magnitude < infinity := of_decide_eq_true hx
  have hdiv := Nat.div_add_mod x.magnitude fractions
  have hmod : x.magnitude % fractions < fractions := Nat.mod_lt _ (by decide)
  unfold scaled
  unfold infinity at hfinite
  unfold fractions at hdiv hmod
  dsimp only
  split
  · next h =>
    rw [fractions] at h ⊢
    rw [h] at hdiv
    exact ⟨by dsimp only [fractions]; omega, by omega, le_refl _, by dsimp only; omega, .inl rfl⟩
  · next h =>
    rw [fractions] at h ⊢
    exact ⟨by dsimp only [fractions]; omega, by omega, by omega, by omega, .inr (by omega)⟩

theorem ratio_spec (x : Binary64) : 0 < x.ratio.2 ∧ (x.ratio.1 : ℚ) / x.ratio.2 = x.absValue := by
  unfold ratio absValue
  rcases x.scaled with ⟨u, q⟩
  dsimp only
  split
  · next h =>
    obtain ⟨k, rfl⟩ := Int.eq_ofNat_of_zero_le h
    refine ⟨one_pos, ?_⟩
    rw [zpow_natCast]
    push_cast
    simp
  · next h =>
    obtain ⟨k, rfl⟩ : ∃ k : Nat, q = -k := ⟨(-q).toNat, by omega⟩
    refine ⟨Nat.pow_pos two_pos, ?_⟩
    rw [zpow_neg, zpow_natCast, ← div_eq_mul_inv]
    simp

theorem close_pos {y x : ℚ} (h : Close y x) (hx : 0 < x) : x / 2 < y ∧ y < 2 * x := by
  have h' : |y - x| ≤ x / (2 * 10 ^ 16) := (le_div_iff₀ (by positivity)).mpr h
  rw [abs_le] at h'
  constructor <;> linarith

theorem absValue_lt {x : Binary64} (hx : x.isFinite) : x.absValue < 2 ^ (1024 : Int) := by
  obtain ⟨-, hu, -, hq, -⟩ := parts hx
  have hu' : (x.scaled.1 : ℚ) < 2 ^ (53 : Int) := by exact_mod_cast hu
  have hpow : (2 : ℚ) ^ x.scaled.2 ≤ 2 ^ (971 : Int) := zpow_le_zpow_right₀ one_le_two hq
  calc x.absValue < 2 ^ (53 : Int) * 2 ^ x.scaled.2 := by unfold absValue; gcongr
    _ ≤ 2 ^ (53 : Int) * 2 ^ (971 : Int) := by gcongr
    _ = 2 ^ (1024 : Int) := (zpow_add₀ two_ne_zero 53 971).symm

theorem le_absValue {x : Binary64} (hx : x.isFinite) (hu : x.scaled.1 ≠ 0) :
    (2 : ℚ) ^ (-1074 : Int) ≤ x.absValue := by
  obtain ⟨-, -, hq, -, -⟩ := parts hx
  have hone : (1 : ℚ) ≤ x.scaled.1 := by exact_mod_cast Nat.one_le_iff_ne_zero.mpr hu
  calc (2 : ℚ) ^ (-1074 : Int) ≤ 2 ^ x.scaled.2 := zpow_le_zpow_right₀ one_le_two hq
    _ = 1 * 2 ^ x.scaled.2 := (one_mul _).symm
    _ ≤ x.absValue := by unfold absValue; gcongr

theorem ofRatio_eq_self {x : Binary64} (hx : x.isFinite) (hu : x.scaled.1 ≠ 0) {num den : Nat}
    (hden : 0 < den) (hclose : Close ((num : ℚ) / den) x.absValue) :
    ofRatio x.isNegative num den = x := by
  obtain ⟨hmagnitude, hlt, hq, -, hnormal⟩ := parts hx
  have hfinite : x.magnitude < infinity := of_decide_eq_true hx
  rw [ofRatio_of_close x.isNegative hden (Nat.pos_of_ne_zero hu) hlt hq hnormal
    (hmagnitude ▸ hfinite) hclose, ← hmagnitude, ofMagnitude_magnitude]

/-- A power of ten lies beyond the same power of eight. -/
theorem eight_le_ten {power : Int} (h : 0 ≤ power) : (2 : ℚ) ^ (3 * power) ≤ 10 ^ power := by
  rw [zpow_mul]
  exact zpow_le_zpow_left₀ h (by positivity) (by norm_num)

theorem ten_le_eight {power : Int} (h : power ≤ 0) : (10 : ℚ) ^ power ≤ 2 ^ (3 * power) := by
  have hinv := inv_anti₀ (by positivity) (eight_le_ten (Int.neg_nonneg.mpr h))
  rwa [← zpow_neg, ← zpow_neg, neg_neg, mul_neg, neg_neg] at hinv

theorem power_le_of_lt {digits : Nat} {power : Int} (hdigits : digits ≠ 0)
    (hlt : (digits : ℚ) * 10 ^ power < 2 ^ (1024 + 1 : Int)) : ¬ 400 < power := by
  intro h
  have hone : (1 : ℚ) ≤ digits := by exact_mod_cast Nat.one_le_iff_ne_zero.mpr hdigits
  have hten : (0 : ℚ) < 10 ^ power := by positivity
  have hpow : (2 : ℚ) ^ (3 * power) < 2 ^ (1024 + 1 : Int) := by
    calc (2 : ℚ) ^ (3 * power) ≤ 10 ^ power := eight_le_ten (by omega)
      _ ≤ digits * 10 ^ power := le_mul_of_one_le_left hten.le hone
      _ < 2 ^ (1024 + 1 : Int) := hlt
  rw [zpow_lt_zpow_iff_right₀ one_lt_two] at hpow
  omega

theorem le_power_of_lt {digits : Nat} {power : Int}
    (hlt : (2 : ℚ) ^ (-1074 - 1 : Int) < digits * 10 ^ power) :
    ¬ (digits.log2 : Int) + 1 + 3 * power < -1080 := by
  intro h
  have hlog : (digits : ℚ) < 2 ^ ((digits.log2 : Int) + 1) := by
    have : digits < 2 ^ (digits.log2 + 1) := Nat.lt_log2_self
    exact_mod_cast this
  have hpow : (2 : ℚ) ^ (-1074 - 1 : Int) < 2 ^ ((digits.log2 : Int) + 1 + 3 * power) := by
    calc (2 : ℚ) ^ (-1074 - 1 : Int) < digits * 10 ^ power := hlt
      _ ≤ digits * 2 ^ (3 * power) := by gcongr; exact ten_le_eight (by omega)
      _ < 2 ^ ((digits.log2 : Int) + 1) * 2 ^ (3 * power) := by gcongr
      _ = 2 ^ ((digits.log2 : Int) + 1 + 3 * power) := (zpow_add₀ two_ne_zero _ _).symm
  rw [zpow_lt_zpow_iff_right₀ one_lt_two] at hpow
  omega

/-- Digits that are close to a double are read as the double. -/
theorem ofDecimal_of_close {x : Binary64} (hx : x.isFinite) (hu : x.scaled.1 ≠ 0) {digits : Nat}
    {power : Int} (hclose : Close (digits * 10 ^ power) x.absValue) :
    ofDecimal x.isNegative digits power = x := by
  have hlow := le_absValue hx hu
  have hhigh := absValue_lt hx
  have hpos : 0 < x.absValue := lt_of_lt_of_le (by positivity) hlow
  obtain ⟨hbelow, habove⟩ := close_pos hclose hpos
  have hdigits : digits ≠ 0 := by
    rintro rfl
    simp at hbelow
    linarith
  have hnotlarge : ¬ 400 < power := by
    apply power_le_of_lt hdigits
    rw [zpow_add_one₀ two_ne_zero]
    linarith
  have hnotsmall : ¬ (digits.log2 : Int) + 1 + 3 * power < -1080 := by
    apply le_power_of_lt
    rw [zpow_sub_one₀ two_ne_zero]
    linarith
  rw [ofDecimal, if_neg hdigits, if_neg hnotlarge, if_neg hnotsmall]
  split
  · next h =>
    obtain ⟨k, rfl⟩ := Int.eq_ofNat_of_zero_le h
    refine ofRatio_eq_self hx hu one_pos ?_
    rw [zpow_natCast] at hclose
    push_cast
    simpa using hclose
  · next h =>
    obtain ⟨k, rfl⟩ : ∃ k : Nat, power = -k := ⟨(-power).toNat, by omega⟩
    refine ofRatio_eq_self hx hu (Nat.pow_pos (by decide)) ?_
    rw [zpow_neg, zpow_natCast, ← div_eq_mul_inv] at hclose
    simpa using hclose

end Binary64

/-! ## Seventeen digits -/

namespace Binary64

theorem significant_eq (num den : Nat) : significant num den =
    if roundAt 10 num den (floorLog10 num den - 16) = 10 ^ 17 then (10 ^ 16, floorLog10 num den + 1)
    else (roundAt 10 num den (floorLog10 num den - 16), floorLog10 num den) := rfl

/-- The significant digits are seventeen, and close to the number. -/
theorem significant_spec {num den : Nat} (hnum : 0 < num) (hden : 0 < den) :
    10 ^ 16 ≤ (significant num den).1 ∧ (significant num den).1 < 10 ^ 17 ∧
      Close ((significant num den).1 * 10 ^ ((significant num den).2 - 16)) ((num : ℚ) / den) := by
  obtain ⟨hlow, hhigh⟩ := floorLog10_spec hnum hden
  rw [significant_eq]
  generalize floorLog10 num den = p at hlow hhigh ⊢
  have hunit : (0 : ℚ) < 10 ^ (p - 16) := by positivity
  have hround := roundAt_close num (by decide : 0 < 10) hden (p - 16)
  push_cast at hround
  generalize roundAt 10 num den (p - 16) = v at hround ⊢
  generalize (num : ℚ) / den = x at hlow hhigh hround ⊢
  rw [show p = 16 + (p - 16) by omega, zpow_add₀ (by norm_num), ← le_div_iff₀ hunit] at hlow
  rw [show p + 1 = 17 + (p - 16) by omega, zpow_add₀ (by norm_num), ← div_lt_iff₀ hunit] at hhigh
  have hx : x / 10 ^ (p - 16) * 10 ^ (p - 16) = x := div_mul_cancel₀ x hunit.ne'
  generalize x / 10 ^ (p - 16) = z at hlow hhigh hround hx
  have h16 : (10 : ℚ) ^ (16 : Int) = 10 ^ 16 := by norm_cast
  have h17 : (10 : ℚ) ^ (17 : Int) = 10 ^ 17 := by norm_cast
  rw [h16] at hlow
  rw [h17] at hhigh
  have hclose : Close (v * 10 ^ (p - 16)) x := by
    have hdiff : (v : ℚ) * 10 ^ (p - 16) - x = (v - z) * 10 ^ (p - 16) := by rw [← hx]; ring
    rw [Close, hdiff, abs_mul, abs_of_pos hunit, ← hx, mul_right_comm]
    refine mul_le_mul_of_nonneg_right ?_ hunit.le
    linarith
  rw [abs_le] at hround
  have hge : 10 ^ 16 ≤ v := by
    have : (10 : ℚ) ^ 16 < v + 1 := by linarith
    have : 10 ^ 16 < v + 1 := by exact_mod_cast this
    omega
  have hle : v ≤ 10 ^ 17 := by
    have : (v : ℚ) < 10 ^ 17 + 1 := by linarith
    have : v < 10 ^ 17 + 1 := by exact_mod_cast this
    omega
  split
  · next h =>
    refine ⟨le_refl _, by norm_num, ?_⟩
    have hsame : ((10 ^ 16 : Nat) : ℚ) * 10 ^ (p + 1 - 16) = v * 10 ^ (p - 16) := by
      rw [h, show p + 1 - 16 = p - 16 + 1 by omega, zpow_add_one₀ (by norm_num)]
      push_cast
      ring
    rw [hsame]
    exact hclose
  · next h => exact ⟨hge, by omega, hclose⟩

end Binary64

end ShapeTraits
