-- Number literals: an optional sign, a whole part without leading zeros, and
-- an optional fraction and exponent.
import ShapeTraits.Number
import ShapeTraits.Token.Fault

namespace ShapeTraits

/-- An exponent as it is written: its letter, its sign if any, its digits. -/
structure Exponent where
  letter : UInt8
  sign : Option UInt8
  digits : Bytes
  deriving DecidableEq, Repr

namespace Exponent

def text (e : Exponent) : Bytes := [e.letter] ++ e.sign.toList ++ e.digits

def value (e : Exponent) : Int :=
  if e.sign = some Byte.minus then -Bytes.digitsValue e.digits else Bytes.digitsValue e.digits

end Exponent

/-- A number literal in its parts. -/
structure Numeral where
  negative : Bool
  whole : Bytes
  fraction : Option Bytes
  exponent : Option Exponent
  deriving DecidableEq, Repr

namespace Numeral

/-- The literal as it is written. -/
def text (n : Numeral) : Bytes :=
  (if n.negative then [Byte.minus] else []) ++ n.whole ++
    (match n.fraction with | none => [] | some digits => Byte.dot :: digits) ++
    (match n.exponent with | none => [] | some e => e.text)

/-- The number it stands for: an integer if there is neither a fraction nor an
exponent, and a double otherwise. -/
def value (n : Numeral) : Number :=
  match n.fraction, n.exponent with
  | none, none => .ofDigits n.negative (Bytes.digitsValue n.whole)
  | fraction, exponent =>
    let decimals := fraction.getD []
    let power := match exponent with | none => 0 | some e => e.value
    .double (.ofDecimal n.negative (Bytes.digitsValue (n.whole ++ decimals))
      (power - decimals.length))

/-! ## Reading -/

/-- The digits a text begins with. -/
def leadingDigits (text : Bytes) : Bytes := text.takeWhile Byte.isDigit

/-- The fraction a text begins with, if it begins with a point; else how far a
fault reaches. -/
def fraction? : Bytes → Except Nat (Option Bytes)
  | [] => .ok none
  | b :: rest =>
    if b = Byte.dot then
      match leadingDigits rest with
      | [] => .error 1
      | digits => .ok (some digits)
    else .ok none

/-- The letters that begin an exponent. -/
def isExponentLetter (b : UInt8) : Bool := b == 0x65 || b == 0x45

def isSign (b : UInt8) : Bool := b == Byte.plus || b == Byte.minus

/-- The exponent a text begins with, if it begins with its letter; else how far
a fault reaches. -/
def exponent? : Bytes → Except Nat (Option Exponent)
  | [] => .ok none
  | b :: rest =>
    if isExponentLetter b then
      let sign := rest.head?.filter isSign
      match leadingDigits (rest.drop sign.toList.length) with
      | [] => .error (1 + sign.toList.length)
      | digits => .ok (some ⟨b, sign, digits⟩)
    else .ok none

/-- The numeral a text begins with, or a fault and how far it reaches. -/
def read (text : Bytes) : Except (Fault × Nat) Numeral :=
  let negative := text.head? == some Byte.minus
  let whole := leadingDigits (text.drop negative.toNat)
  let wholeEnd := negative.toNat + whole.length
  if whole = [] then .error (.missingDigit, wholeEnd)
  else if whole.head? = some Byte.zero ∧ 1 < whole.length then .error (.leadingZero, wholeEnd)
  else
    match fraction? (text.drop wholeEnd) with
    | .error width => .error (.missingFraction, wholeEnd + width)
    | .ok fraction =>
      let fractionEnd := (Numeral.mk negative whole fraction none).text.length
      match exponent? (text.drop fractionEnd) with
      | .error width => .error (.missingExponent, fractionEnd + width)
      | .ok exponent =>
        let numeral : Numeral := ⟨negative, whole, fraction, exponent⟩
        let letters := (text.drop numeral.text.length).takeWhile Byte.isIdentifierContinue
        if letters.head?.any Byte.isIdentifierStart then
          .error (.strayLetter, numeral.text.length + letters.length)
        else .ok numeral

/-! ## How far a numeral reaches -/

/-- How far the sign and the whole part reach. -/
def wholeEnd (text : Bytes) : Nat :=
  let sign := (text.head? == some Byte.minus).toNat
  sign + (leadingDigits (text.drop sign)).length

theorem le_length_text (n : Numeral) : n.negative.toNat + n.whole.length ≤ n.text.length := by
  simp only [text, List.length_append]
  have hsign : n.negative.toNat = (if n.negative then [Byte.minus] else []).length := by
    cases n.negative <;> rfl
  omega

theorem wholeEnd_le_of_read {text : Bytes} {n : Numeral} (h : read text = .ok n) :
    wholeEnd text ≤ n.text.length := by
  have := le_length_text n
  simp only [read] at h
  (repeat' split at h) <;> cases h
  exact this

theorem wholeEnd_le_of_read_error {text : Bytes} {fault : Fault} {width : Nat}
    (h : read text = .error (fault, width)) : wholeEnd text ≤ width := by
  simp only [read] at h
  (repeat' split at h) <;> cases h
  · exact Nat.le_refl _
  · exact Nat.le_refl _
  · exact Nat.le_add_right _ _
  · exact Nat.le_trans (le_length_text (Numeral.mk _ _ _ none)) (Nat.le_add_right _ _)
  · exact Nat.le_trans (le_length_text (Numeral.mk _ _ _ _)) (Nat.le_add_right _ _)

theorem wholeEnd_pos {first : UInt8} (rest : Bytes)
    (h : Byte.isDigit first ∨ first = Byte.minus) : 0 < wholeEnd (first :: rest) := by
  by_cases hm : first = Byte.minus
  · subst hm; exact Nat.lt_add_right _ Nat.one_pos
  · have hd : Byte.isDigit first := h.resolve_right hm
    have hb : (some first == some Byte.minus) = false := by simpa using hm
    simp [wholeEnd, leadingDigits, hb, hd]

end Numeral

end ShapeTraits
