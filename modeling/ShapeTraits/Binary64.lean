-- Double-precision numbers by their 64 bits, with exact arithmetic on natural
-- numbers: rounding a quotient to the nearest double, and IEEE equality.
import ShapeTraits.Bytes

namespace ShapeTraits

/-- A double, by the bits of its interchange form: sign, eleven bits of
exponent, fifty-two of fraction. -/
structure Binary64 where
  bits : UInt64
  deriving DecidableEq, Repr

/-- The whole number nearest to `num / den`; a half goes to the even neighbour. -/
def roundQuotient (num den : Nat) : Nat :=
  let quotient := num / den
  let twice := 2 * (num % den)
  if den < twice ∨ (twice = den ∧ quotient % 2 = 1) then quotient + 1 else quotient

namespace Binary64

/-! ## Fields -/

/-- The value of the sign bit. -/
def signBit : Nat := 0x8000000000000000

/-- The number of fractions, which is the value of the lowest exponent bit. -/
def fractions : Nat := 0x10000000000000

/-- The magnitude of the infinities. Every larger one is a NaN. -/
def infinity : Nat := 0x7ff0000000000000

def isNegative (x : Binary64) : Bool := signBit ≤ x.bits.toNat

/-- The bits without the sign. -/
def magnitude (x : Binary64) : Nat := x.bits.toNat % signBit

def isNaN (x : Binary64) : Bool := infinity < x.magnitude

def isFinite (x : Binary64) : Bool := x.magnitude < infinity

/-- The double with a sign and a magnitude. -/
def ofMagnitude (negative : Bool) (magnitude : Nat) : Binary64 :=
  ⟨UInt64.ofNat ((if negative then signBit else 0) + magnitude)⟩

/-- The absolute value of a finite double as a whole number of units and the
power of two that is the unit. -/
def scaled (x : Binary64) : Nat × Int :=
  let exponent : Nat := x.magnitude / fractions
  let fraction : Nat := x.magnitude % fractions
  if exponent = 0 then (fraction, -1074) else (fractions + fraction, (exponent : Int) - 1075)

/-- The absolute value of a finite double as a quotient. -/
def ratio (x : Binary64) : Nat × Nat :=
  let (units, power) := x.scaled
  if 0 ≤ power then (units * Nat.pow 2 power.toNat, 1) else (units, Nat.pow 2 (-power).toNat)

/-! ## Rounding to the nearest double -/

/-- The largest power of two that is not above `num / den`. -/
def floorLog2 (num den : Nat) : Int :=
  let guess : Int := num.log2 - den.log2
  let below :=
    if 0 ≤ guess then num < den * Nat.pow 2 guess.toNat else num * Nat.pow 2 (-guess).toNat < den
  if below then guess - 1 else guess

/-- The double nearest to `num / den` with the given sign. A tie goes to the
even fraction, and what is too large becomes infinite. -/
def ofRatio (negative : Bool) (num den : Nat) : Binary64 :=
  if num = 0 then ofMagnitude negative 0
  else
    let power := max (floorLog2 num den - 52) (-1074)
    let units :=
      if 0 ≤ power then roundQuotient num (den * Nat.pow 2 power.toNat)
      else roundQuotient (num * Nat.pow 2 (-power).toNat) den
    ofMagnitude negative (min ((power + 1074).toNat * fractions + units) infinity)

/-- The double nearest to a whole number. -/
def ofInt (n : Int) : Binary64 := ofRatio (n < 0) n.natAbs 1

/-- The double nearest to `digits` times a power of ten. The first two cases
give the same answer as the third, without its large powers. -/
def ofDecimal (negative : Bool) (digits : Nat) (exponent : Int) : Binary64 :=
  if digits = 0 then ofMagnitude negative 0
  else if 400 < exponent then ofMagnitude negative infinity
  else if (digits.log2 : Int) + 1 + 3 * exponent < -1080 then ofMagnitude negative 0
  else if 0 ≤ exponent then ofRatio negative (digits * Nat.pow 10 exponent.toNat) 1
  else ofRatio negative digits (Nat.pow 10 (-exponent).toNat)

/-! ## Equality -/

/-- IEEE equality: a NaN equals nothing, and the two zeros are equal. -/
def equal (x y : Binary64) : Bool :=
  !x.isNaN && !y.isNaN && (x == y || (x.magnitude == 0 && y.magnitude == 0))

end Binary64

end ShapeTraits
