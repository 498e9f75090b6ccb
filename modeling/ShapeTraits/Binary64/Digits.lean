-- The decimal text of a double: seventeen significant digits, enough to tell
-- every double from its neighbours.
import ShapeTraits.Binary64

namespace ShapeTraits.Binary64

/-- The number of decimal digits, none for zero. -/
def decimalLength (n : Nat) : Nat := if n = 0 then 0 else (Bytes.ofNat n).length

/-- The largest power of ten that is not above `num / den`. -/
def floorLog10 (num den : Nat) : Int :=
  if den ≤ num then (decimalLength (num / den) : Int) - 1 else -decimalLength ((den - 1) / num)

/-- How many digits are written. -/
def precision : Nat := 17

/-- The digits of `num / den`, as one whole number of `precision` digits, and
the power of ten of the first digit. -/
def significant (num den : Nat) : Nat × Int :=
  let power := floorLog10 num den
  let unit := power - (precision - 1 : Nat)
  let digits :=
    if 0 ≤ unit then roundQuotient num (den * Nat.pow 10 unit.toNat)
    else roundQuotient (num * Nat.pow 10 (-unit).toNat) den
  if digits = Nat.pow 10 precision then (Nat.pow 10 (precision - 1), power + 1) else (digits, power)

/-- Digits after the point, without the zeros at the end. -/
def fractionText (digits : Bytes) : Bytes :=
  match Bytes.dropTrailing (· == Byte.zero) digits with
  | [] => []
  | kept => Byte.dot :: kept

/-- An exponent has a sign and at least two digits. -/
def exponentText (power : Int) : Bytes :=
  utf8 "e" ++ [if power < 0 then Byte.minus else Byte.plus] ++
    Bytes.padStart 2 Byte.zero (Bytes.ofNat power.natAbs)

/-- Positional from `1e-4` on and below `1e17`, with an exponent outside. -/
def positiveText (num den : Nat) : Bytes :=
  let (value, power) := significant num den
  let digits := Bytes.ofNat value
  if power < -4 ∨ (precision : Int) ≤ power then
    digits.take 1 ++ fractionText (digits.drop 1) ++ exponentText power
  else if power < 0 then
    Byte.zero :: fractionText (List.replicate (-power - 1).toNat Byte.zero ++ digits)
  else digits.take (power.toNat + 1) ++ fractionText (digits.drop (power.toNat + 1))

/-- The text of a finite double. -/
def text (x : Binary64) : Bytes :=
  let (num, den) := x.ratio
  let sign := if x.isNegative then [Byte.minus] else []
  sign ++ if num = 0 then [Byte.zero] else positiveText num den

end ShapeTraits.Binary64
