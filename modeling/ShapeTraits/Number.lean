-- Numbers as the document language knows them: 64-bit integers of either
-- signedness, and doubles for the rest.
import ShapeTraits.Binary64.Digits

namespace ShapeTraits

/-- A number in the form that keeps most of it. -/
inductive Number where
  | int64 (value : Int64)
  | uint64 (value : UInt64)
  | double (value : Binary64)
  deriving DecidableEq, Repr

namespace Number

def isInteger : Number → Bool
  | double _ => false
  | _ => true

/-- The least number that no signed integer holds. -/
def signedLimit : Nat := 0x8000000000000000

/-- The least number that no unsigned integer holds. -/
def unsignedLimit : Nat := 0x10000000000000000

/-- The number as a signed integer, if it is an integer in that range. -/
def toInt64? : Number → Option Int64
  | int64 v => some v
  | uint64 v => if v.toNat < signedLimit then some (Int64.ofNat v.toNat) else none
  | double _ => none

/-- The nearest double. -/
def toBinary64 : Number → Binary64
  | int64 v => .ofInt v.toInt
  | uint64 v => .ofInt v.toNat
  | double v => v

/-- Numbers of one form compare by value, numbers of different forms by their
nearest doubles. -/
def equal : Number → Number → Bool
  | int64 a, int64 b => a == b
  | uint64 a, uint64 b => a == b
  | a, b => a.toBinary64.equal b.toBinary64

/-- The integer in the first form that holds it: signed, unsigned if it is not
negative, and else the nearest double. -/
def ofDigits (negative : Bool) (digits : Nat) : Number :=
  if negative then
    if digits ≤ signedLimit then int64 (Int64.ofInt (-digits))
    else double (.ofDecimal true digits 0)
  else if digits < signedLimit then int64 (Int64.ofNat digits)
  else if digits < unsignedLimit then uint64 (UInt64.ofNat digits)
  else double (.ofDecimal false digits 0)

/-! ## Text -/

/-- A double always shows that it is one, by a point or an exponent. What is
not finite has no text of its own and gives `null`. -/
def doubleText (x : Binary64) : Bytes :=
  if x.isFinite then
    let digits := x.text
    if digits.any (fun b => b == Byte.dot || b == 0x65) then digits else digits ++ utf8 ".0"
  else utf8 "null"

/-- The number as it stands in JSON. -/
def text : Number → Bytes
  | int64 v => Bytes.ofInt v.toInt
  | uint64 v => Bytes.ofNat v.toNat
  | double v => doubleText v

end Number

end ShapeTraits
