-- The language of number literals: a text of it is one number token, and the text of every
-- number token is of it, with the number that it stands for.
import Mathlib.Computability.Language
import ShapeTraits.Proofs.DoubleText
import ShapeTraits.Proofs.Tiling

namespace ShapeTraits

open scoped Computability

/-! ## The language -/

namespace Numeral

/-- The texts of one byte. -/
def single (p : UInt8 → Bool) : Language UInt8 := {text | ∃ b, text = [b] ∧ p b = true}

def digit : Language UInt8 := single Byte.isDigit

def nonzeroDigit : Language UInt8 := single fun b => Byte.isDigit b && b != Byte.zero

/-- An optional minus, and a zero alone or digits that begin with none. -/
def integers : Language UInt8 :=
  (1 + single (· == Byte.minus)) * (single (· == Byte.zero) + nonzeroDigit * digit∗)

def fractions : Language UInt8 := single (· == Byte.dot) * (digit * digit∗)

def exponents : Language UInt8 := single isExponentLetter * ((1 + single isSign) * (digit * digit∗))

/-- Integers, with a fraction or without, and with an exponent or without. -/
def literals : Language UInt8 := integers * ((1 + fractions) * (1 + exponents))

variable {text : Bytes} {p : UInt8 → Bool} {parts : Language UInt8}

theorem mem_single_mul :
    text ∈ single p * parts ↔ ∃ b rest, text = b :: rest ∧ p b = true ∧ rest ∈ parts := by
  rw [Language.mem_mul]
  constructor
  · rintro ⟨_, ⟨b, rfl, hb⟩, rest, hrest, rfl⟩
    exact ⟨b, rest, rfl, hb, hrest⟩
  · rintro ⟨b, rest, rfl, hb, hrest⟩
    exact ⟨[b], ⟨b, rfl, hb⟩, rest, hrest, rfl⟩

theorem mem_optional : text ∈ 1 + parts ↔ text = [] ∨ text ∈ parts := by
  rw [Language.mem_add, Language.mem_one]

theorem mem_kstar_single : text ∈ (single p)∗ ↔ ∀ b ∈ text, p b = true := by
  rw [Language.mem_kstar]
  constructor
  · rintro ⟨pieces, rfl, hpieces⟩ b hb
    obtain ⟨piece, hpiece, hb⟩ := List.mem_flatten.mp hb
    obtain ⟨c, rfl, hc⟩ := hpieces piece hpiece
    rwa [List.mem_singleton.mp hb]
  · intro h
    refine ⟨text.map ([·]), (List.flatMap_singleton' text).symm, fun piece hpiece => ?_⟩
    obtain ⟨b, hb, rfl⟩ := List.mem_map.mp hpiece
    exact ⟨b, rfl, h b hb⟩

theorem mem_digits : text ∈ digit * digit∗ ↔ Digits text := by
  rw [digit, mem_single_mul]
  constructor
  · rintro ⟨b, rest, rfl, hb, hrest⟩
    exact ⟨List.cons_ne_nil _ _, List.forall_mem_cons.mpr ⟨hb, mem_kstar_single.mp hrest⟩⟩
  · rintro ⟨hne, hdigits⟩
    obtain ⟨b, rest, rfl⟩ := List.exists_cons_of_ne_nil hne
    obtain ⟨hb, hrest⟩ := List.forall_mem_cons.mp hdigits
    exact ⟨b, rest, rfl, hb, mem_kstar_single.mpr hrest⟩

/-- The whole parts of the grammar are the digits without leading zeros. -/
theorem mem_whole : text ∈ single (· == Byte.zero) + nonzeroDigit * digit∗ ↔
    Digits text ∧ (text.head? = some Byte.zero → text.length ≤ 1) := by
  rw [Language.mem_add, nonzeroDigit, mem_single_mul]
  constructor
  · rintro (⟨b, rfl, hb⟩ | ⟨b, rest, rfl, hb, hrest⟩)
    · rw [beq_iff_eq.mp hb]
      exact ⟨digits_zero, fun _ => Nat.le_refl 1⟩
    · obtain ⟨hdigit, hzero⟩ := Bool.and_eq_true_iff.mp hb
      refine ⟨mem_digits.mp (mem_single_mul.mpr ⟨b, rest, rfl, hdigit, hrest⟩), fun hhead => ?_⟩
      exact absurd (Option.some.inj hhead) (bne_iff_ne.mp hzero)
  · rintro ⟨hdigits, hlong⟩
    obtain ⟨b, rest, rfl, hb, hrest⟩ := mem_single_mul.mp (mem_digits.mpr hdigits)
    by_cases hzero : b = Byte.zero
    · have hnil : rest = [] := by simpa [hzero] using hlong
      exact .inl ⟨b, by rw [hnil], beq_iff_eq.mpr hzero⟩
    · exact .inr ⟨b, rest, rfl, by simp [hb, hzero], hrest⟩

theorem mem_sign : text ∈ 1 + single (· == Byte.minus) ↔
    ∃ negative : Bool, (if negative then [Byte.minus] else []) = text := by
  rw [mem_optional, Bool.exists_bool]
  have hminus : text ∈ single (· == Byte.minus) ↔ [Byte.minus] = text :=
    ⟨fun ⟨b, htext, hb⟩ => by rw [htext, beq_iff_eq.mp hb], fun h => ⟨_, h.symm, rfl⟩⟩
  rw [hminus]
  exact or_congr_left eq_comm

theorem mem_fraction : text ∈ 1 + fractions ↔
    ∃ f : Option Bytes, (∀ digits, f = some digits → Digits digits) ∧ fractionText f = text := by
  rw [mem_optional, Option.exists, fractions, mem_single_mul]
  constructor
  · rintro (rfl | ⟨b, digits, rfl, hb, hdigits⟩)
    · exact .inl ⟨nofun, rfl⟩
    · refine .inr ⟨digits, fun _ h => Option.some.inj h ▸ mem_digits.mp hdigits, ?_⟩
      rw [beq_iff_eq.mp hb]
      rfl
  · rintro (⟨-, rfl⟩ | ⟨digits, hdigits, rfl⟩)
    · exact .inl rfl
    · exact .inr ⟨Byte.dot, digits, rfl, rfl, mem_digits.mpr (hdigits digits rfl)⟩

/-- An exponent as the grammar has it. -/
def IsExponent (e : Exponent) : Prop :=
  isExponentLetter e.letter = true ∧ (∀ s, e.sign = some s → isSign s = true) ∧ Digits e.digits

theorem mem_exponents : text ∈ exponents ↔ ∃ e : Exponent, IsExponent e ∧ e.text = text := by
  rw [exponents, mem_single_mul]
  constructor
  · rintro ⟨letter, _, rfl, hletter, hrest⟩
    obtain ⟨sign, hsign, digits, hdigits, rfl⟩ := Language.mem_mul.mp hrest
    rcases mem_optional.mp hsign with rfl | ⟨s, rfl, hs⟩
    · exact ⟨⟨letter, none, digits⟩, ⟨hletter, nofun, mem_digits.mp hdigits⟩, rfl⟩
    · refine ⟨⟨letter, some s, digits⟩, ⟨hletter, fun _ h => ?_, mem_digits.mp hdigits⟩, rfl⟩
      rwa [← Option.some.inj h]
  · rintro ⟨⟨letter, sign, digits⟩, ⟨hletter, hsign, hdigits⟩, rfl⟩
    refine ⟨letter, sign.toList ++ digits, rfl, hletter, Language.mem_mul.mpr ?_⟩
    refine ⟨sign.toList, mem_optional.mpr ?_, digits, mem_digits.mpr hdigits, rfl⟩
    cases sign with
    | none => exact .inl rfl
    | some s => exact .inr ⟨s, rfl, hsign s rfl⟩

theorem mem_exponent : text ∈ 1 + exponents ↔
    ∃ e : Option Exponent, (∀ x, e = some x → IsExponent x) ∧ exponentText e = text := by
  rw [mem_optional, Option.exists, mem_exponents]
  refine or_congr ⟨fun h => ⟨nofun, h.symm⟩, fun h => h.2.symm⟩
    (exists_congr fun e => and_congr_left' ?_)
  exact ⟨fun h _ hx => Option.some.inj hx ▸ h, fun h => h e rfl⟩

/-- The integers are the numerals without a fraction and an exponent. -/
theorem mem_integers : text ∈ integers ↔
    ∃ n : Numeral, n.WellFormed ∧ n.fraction = none ∧ n.exponent = none ∧ n.text = text := by
  rw [integers, Language.mem_mul]
  constructor
  · rintro ⟨sign, hsign, whole, hwhole, rfl⟩
    obtain ⟨negative, rfl⟩ := mem_sign.mp hsign
    obtain ⟨hdigits, hzero⟩ := mem_whole.mp hwhole
    refine ⟨⟨negative, whole, none, none⟩, ⟨hdigits, hzero, nofun, nofun, nofun, nofun⟩,
      rfl, rfl, ?_⟩
    simp [text_eq, fractionText, exponentText]
  · rintro ⟨⟨negative, whole, _, _⟩, hn, rfl, rfl, rfl⟩
    refine ⟨_, mem_sign.mpr ⟨negative, rfl⟩, whole, mem_whole.mpr ⟨hn.whole, hn.noZero⟩, ?_⟩
    simp [text_eq, fractionText, exponentText]

/-- The literals are the texts of the well-formed numerals. -/
theorem mem_literals : text ∈ literals ↔ ∃ n : Numeral, n.WellFormed ∧ n.text = text := by
  rw [literals, integers, mul_assoc]
  constructor
  · intro h
    obtain ⟨_, hsign, _, hunsigned, rfl⟩ := Language.mem_mul.mp h
    obtain ⟨whole, hwhole, _, hbehind, rfl⟩ := Language.mem_mul.mp hunsigned
    obtain ⟨_, hpoint, _, hletter, rfl⟩ := Language.mem_mul.mp hbehind
    obtain ⟨negative, rfl⟩ := mem_sign.mp hsign
    obtain ⟨hdigits, hzero⟩ := mem_whole.mp hwhole
    obtain ⟨fraction, hfraction, rfl⟩ := mem_fraction.mp hpoint
    obtain ⟨exponent, hexponent, rfl⟩ := mem_exponent.mp hletter
    refine ⟨⟨negative, whole, fraction, exponent⟩,
      ⟨hdigits, hzero, hfraction, ?_, ?_, ?_⟩, text_eq _⟩
    · exact fun e he => (hexponent e he).1
    · exact fun e he => (hexponent e he).2.1
    · exact fun e he => (hexponent e he).2.2
  · rintro ⟨n, hn, rfl⟩
    rw [text_eq]
    have hexponent (e : Exponent) (he : n.exponent = some e) : IsExponent e :=
      ⟨hn.letter e he, hn.sign e he, hn.exponent e he⟩
    refine Language.append_mem_mul (mem_sign.mpr ⟨_, rfl⟩)
      (Language.append_mem_mul ?_ (Language.append_mem_mul ?_ ?_))
    · exact mem_whole.mpr ⟨hn.whole, hn.noZero⟩
    · exact mem_fraction.mpr ⟨_, hn.fraction, rfl⟩
    · exact mem_exponent.mpr ⟨_, hexponent, rfl⟩

/-- A text is that of one well-formed numeral only. -/
theorem eq_of_text_eq {n m : Numeral} (hn : n.WellFormed) (hm : m.WellFormed)
    (h : n.text = m.text) : n = m := by
  have hread := read_append hn Bytes.avoids_nil
  rw [h, read_append hm Bytes.avoids_nil] at hread
  exact (Except.ok.inj hread).symm

end Numeral

/-! ## The number of a literal -/

/-- The integer of digits behind an optional minus. -/
def Bytes.integer : Bytes → Int
  | [] => 0
  | b :: rest => if b = Byte.minus then -digitsValue rest else digitsValue (b :: rest)

/-- The double nearest to a numeral. -/
def Numeral.nearest (n : Numeral) : Binary64 :=
  .ofDecimal n.negative (Bytes.digitsValue (n.whole ++ n.fraction.getD []))
    (Binary64.powerOf n.exponent - (n.fraction.getD []).length)

/-- What a literal stands for: the integer, in the first form of 64 bits that holds it,
and else the nearest double. -/
structure Number.IsOf (literal : Bytes) (x : Number) : Prop where
  int64 : literal ∈ Numeral.integers → -2 ^ 63 ≤ literal.integer → literal.integer < 2 ^ 63 →
    ∃ v, x = .int64 v ∧ v.toInt = literal.integer
  uint64 : literal ∈ Numeral.integers → 2 ^ 63 ≤ literal.integer → literal.integer < 2 ^ 64 →
    ∃ v, x = .uint64 v ∧ v.toNat = literal.integer
  double : (literal ∈ Numeral.integers → literal.integer < -2 ^ 63 ∨ 2 ^ 64 ≤ literal.integer) →
    ∃ n : Numeral, n.WellFormed ∧ n.text = literal ∧ x = .double n.nearest

namespace Number

/-- A number of digits with its sign. -/
def signed (negative : Bool) (digits : Nat) : Int := if negative then -digits else digits

theorem ofDigits_int64 {negative : Bool} {digits : Nat} (hlow : -2 ^ 63 ≤ signed negative digits)
    (hhigh : signed negative digits < 2 ^ 63) :
    ∃ v, ofDigits negative digits = .int64 v ∧ v.toInt = signed negative digits := by
  cases negative with
  | true =>
    have hfits : digits ≤ signedLimit := by
      simp only [signed, if_true] at hlow
      unfold signedLimit
      omega
    refine ⟨Int64.ofInt (-digits), ?_, Int64.toInt_ofInt_of_le hlow hhigh⟩
    rw [ofDigits, if_pos rfl, if_pos hfits]
  | false =>
    have hfits : digits < signedLimit := by
      simp only [signed, Bool.false_eq_true, if_false] at hhigh
      unfold signedLimit
      omega
    refine ⟨Int64.ofNat digits, ?_, Int64.toInt_ofNat_of_lt hfits⟩
    rw [ofDigits, if_neg Bool.false_ne_true, if_pos hfits]

theorem ofDigits_uint64 {negative : Bool} {digits : Nat} (hlow : 2 ^ 63 ≤ signed negative digits)
    (hhigh : signed negative digits < 2 ^ 64) :
    ∃ v, ofDigits negative digits = .uint64 v ∧ v.toNat = signed negative digits := by
  cases negative with
  | true =>
    simp only [signed, if_true] at hlow
    omega
  | false =>
    simp only [signed, Bool.false_eq_true, if_false] at hlow hhigh ⊢
    have hlarge : ¬digits < signedLimit := by
      unfold signedLimit
      omega
    have hfits : digits < unsignedLimit := by
      unfold unsignedLimit
      omega
    refine ⟨UInt64.ofNat digits, ?_, congrArg Nat.cast (UInt64.toNat_ofNat_of_lt hfits)⟩
    rw [ofDigits, if_neg Bool.false_ne_true, if_neg hlarge, if_pos hfits]

theorem ofDigits_double {negative : Bool} {digits : Nat}
    (h : signed negative digits < -2 ^ 63 ∨ 2 ^ 64 ≤ signed negative digits) :
    ofDigits negative digits = .double (.ofDecimal negative digits 0) := by
  cases negative with
  | true =>
    have hlarge : ¬digits ≤ signedLimit := by
      simp only [signed, if_true] at h
      unfold signedLimit
      omega
    rw [ofDigits, if_pos rfl, if_neg hlarge]
  | false =>
    simp only [signed, Bool.false_eq_true, if_false] at h
    have hlarge : ¬digits < signedLimit := by
      unfold signedLimit
      omega
    have hlarger : ¬digits < unsignedLimit := by
      unfold unsignedLimit
      omega
    rw [ofDigits, if_neg Bool.false_ne_true, if_neg hlarge, if_neg hlarger]

end Number

namespace Numeral

variable {n : Numeral} {more : Bytes}

theorem text_mem_integers (h : n.WellFormed) :
    n.text ∈ integers ↔ n.fraction = none ∧ n.exponent = none := by
  rw [mem_integers]
  constructor
  · rintro ⟨m, hm, hfraction, hexponent, htext⟩
    obtain rfl := eq_of_text_eq hm h htext
    exact ⟨hfraction, hexponent⟩
  · exact fun hn => ⟨n, h, hn.1, hn.2, rfl⟩

theorem integer_text (h : n.WellFormed) (hfraction : n.fraction = none)
    (hexponent : n.exponent = none) :
    n.text.integer = Number.signed n.negative (Bytes.digitsValue n.whole) := by
  obtain ⟨d, digits, hwhole⟩ := List.exists_cons_of_ne_nil h.whole.1
  have hminus : d ≠ Byte.minus := (digit_no_sign d (h.whole.2 d (by simp [hwhole]))).1
  rw [text_eq, hfraction, hexponent, fractionText, exponentText, List.append_nil,
    List.append_nil, hwhole]
  cases n.negative with
  | true => rfl
  | false => exact if_neg hminus

theorem value_of_integer (hfraction : n.fraction = none) (hexponent : n.exponent = none) :
    n.value = .ofDigits n.negative (Bytes.digitsValue n.whole) := by
  rw [value, hfraction, hexponent]

theorem value_of_not_integer (h : ¬(n.fraction = none ∧ n.exponent = none)) :
    n.value = .double n.nearest := by
  obtain ⟨negative, whole, fraction, exponent⟩ := n
  cases fraction with
  | none =>
    cases exponent with
    | none => exact absurd ⟨rfl, rfl⟩ h
    | some e => rfl
  | some digits => cases exponent <;> rfl

theorem value_isOf (h : n.WellFormed) : n.value.IsOf n.text where
  int64 hinteger hlow hhigh := by
    obtain ⟨hfraction, hexponent⟩ := (text_mem_integers h).mp hinteger
    rw [integer_text h hfraction hexponent] at hlow hhigh ⊢
    rw [value_of_integer hfraction hexponent]
    exact Number.ofDigits_int64 hlow hhigh
  uint64 hinteger hlow hhigh := by
    obtain ⟨hfraction, hexponent⟩ := (text_mem_integers h).mp hinteger
    rw [integer_text h hfraction hexponent] at hlow hhigh ⊢
    rw [value_of_integer hfraction hexponent]
    exact Number.ofDigits_uint64 hlow hhigh
  double hlarge := by
    refine ⟨n, h, rfl, ?_⟩
    by_cases hinteger : n.fraction = none ∧ n.exponent = none
    · have hrange := hlarge ((text_mem_integers h).mpr hinteger)
      obtain ⟨hfraction, hexponent⟩ := hinteger
      rw [integer_text h hfraction hexponent] at hrange
      rw [value_of_integer hfraction hexponent, Number.ofDigits_double hrange, nearest,
        hfraction, hexponent]
      simp [Binary64.powerOf]
    · exact value_of_not_integer hinteger

/-! ## What follows a literal -/

/-- Behind all the digits that a text begins with is none. -/
theorem avoids_digit {digits : Bytes} (hdigits : Digits digits)
    (h : leadingDigits (digits ++ more) = digits) :
    Bytes.Avoids Byte.isDigit more := by
  rw [leadingDigits, List.takeWhile_append_of_pos hdigits.2] at h
  exact Bytes.avoids_of_takeWhile (List.append_right_eq_self.mp h)

theorem avoids_digit_of_fraction {digits : Bytes} (hdigits : Digits digits)
    (h : fraction? (fractionText (some digits) ++ more) = .ok (some digits)) :
    Bytes.Avoids Byte.isDigit more := by
  rw [fractionText, List.cons_append, fraction?, if_pos rfl] at h
  split at h
  · cases h
  · rw [Except.ok.injEq, Option.some.injEq] at h
    exact avoids_digit hdigits h

theorem avoids_digit_of_exponent {e : Exponent} (he : IsExponent e)
    (h : exponent? (exponentText (some e) ++ more) = .ok (some e)) :
    Bytes.Avoids Byte.isDigit more := by
  obtain ⟨letter, sign, digits⟩ := e
  obtain ⟨hletter, hsign, hdigits⟩ := he
  have htext : exponentText (some ⟨letter, sign, digits⟩) ++ more =
      letter :: (sign.toList ++ digits ++ more) := by
    simp [exponentText, Exponent.text]
  have hdrop : (sign.toList ++ digits ++ more).drop sign.toList.length = digits ++ more := by
    rw [List.append_assoc]
    exact List.drop_left
  rw [htext, exponent?, if_pos hletter] at h
  simp only [filter_sign hsign hdigits, hdrop] at h
  split at h
  · cases h
  · rw [Except.ok.injEq, Option.some.injEq, Exponent.mk.injEq] at h
    exact avoids_digit hdigits h.2.2

/-- No digit follows what is read, since every part takes all its digits. -/
theorem Parts.avoids_digit (h : Parts (n.text ++ more) n) : Bytes.Avoids Byte.isDigit more := by
  have hn := h.wellFormed
  obtain ⟨negative, whole, fraction, exponent⟩ := n
  have hdrop : ((Numeral.mk negative whole fraction exponent).text ++ more).drop negative.toNat =
      whole ++ (fractionText fraction ++ (exponentText exponent ++ more)) := by
    rw [text_append]
    exact drop_sign negative _
  have hexponent := h.exponent
  have hfraction := h.fraction
  have hwhole := h.whole
  rw [drop_fraction] at hexponent
  rw [← List.drop_drop, hdrop, List.drop_left] at hfraction
  rw [hdrop] at hwhole
  cases exponent with
  | some e =>
    exact avoids_digit_of_exponent ⟨hn.letter e rfl, hn.sign e rfl, hn.exponent e rfl⟩ hexponent
  | none =>
    cases fraction with
    | some digits => exact avoids_digit_of_fraction (hn.fraction digits rfl) hfraction
    | none => exact Numeral.avoids_digit hn.whole hwhole

/-- Behind a numeral that is read is no byte of a name. -/
theorem Parts.avoids (h : Parts (n.text ++ more) n) :
    Bytes.Avoids Byte.isIdentifierContinue more := by
  have happart := h.apart
  rw [List.drop_left] at happart
  intro b hb
  obtain ⟨rest, rfl⟩ := List.head?_eq_some_iff.mp hb
  have hdigit : Byte.isDigit b = false := h.avoids_digit.head
  by_contra hcontinue
  rw [Bool.not_eq_false] at hcontinue
  rw [List.takeWhile_cons_of_pos hcontinue] at happart
  have hstart : Byte.isIdentifierStart b = false := happart
  rw [Byte.isIdentifierContinue, hstart, hdigit] at hcontinue
  cases hcontinue

end Numeral

/-! ## The laws -/

namespace Numeral

/-- A text of the language is one token, if nothing goes on with it. -/
theorem first_token_of_literal {literal rest : Bytes} (h : literal ∈ literals)
    (hrest : Bytes.Avoids goesOn rest) (file : Bytes) :
    ∃ t after, (Source.mk file (literal ++ rest)).tokens = t :: after ∧ t.kind = .number ∧
      t.lexeme = literal := by
  obtain ⟨n, hn, rfl⟩ := mem_literals.mp h
  obtain ⟨w, k, htokens, -, -, t, rfl, hcontent, hlexeme⟩ :=
    spells hn (.ofSource ⟨file, n.text ++ rest⟩) rest rfl hrest
  exact ⟨t, k.tokens, htokens, congrArg Token.Content.kind hcontent, hlexeme⟩

end Numeral

theorem Token.content_of_number {t : Token} (h : t.kind = .number) :
    ∃ x, t.content = .number x := by
  obtain ⟨content, lexeme, start, last⟩ := t
  cases content with
  | number x => exact ⟨x, rfl⟩
  | _ => cases h

/-- A number token is the numeral that is read there. -/
theorem Lexer.numeral_of_number {l : Lexer} {x : Number} (h : l.token.content = .number x) :
    ∃ n : Numeral, Numeral.Parts l.ahead n ∧ l.lexeme = n.text ∧ x = n.value := by
  obtain ⟨n, hread, hx, hwidth⟩ := Scan.next_number h
  have hparts := Numeral.read_eq_ok.mp hread
  refine ⟨n, hparts, ?_, hx⟩
  rw [lexeme, hwidth, ← List.prefix_iff_eq_take.mp hparts.text_starts]

/-- A number token is of the language, with its number, and nothing that would go on
with it follows. -/
theorem Lexer.literal_of_number {l : Lexer} {x : Number} (h : l.token.content = .number x) :
    l.token.lexeme ∈ Numeral.literals ∧ x.IsOf l.token.lexeme ∧
      Bytes.Avoids Byte.isIdentifierContinue l.rest.ahead := by
  obtain ⟨n, hparts, hlexeme, rfl⟩ := numeral_of_number h
  have htoken : l.token.lexeme = n.text := hlexeme
  rw [← lexeme_append_rest l, hlexeme] at hparts
  rw [htoken]
  exact ⟨Numeral.mem_literals.mpr ⟨n, hparts.wellFormed, rfl⟩, Numeral.value_isOf hparts.wellFormed,
    hparts.avoids⟩

/-- The texts of the language are the number tokens: every one is the first token of a
document where nothing goes on with it, and the text of every number token is one, no
byte of a name follows it, and the token's number is that of the text. -/
theorem the_number_tokens_are_the_literals :
    (∀ literal ∈ Numeral.literals, ∀ rest, Bytes.Avoids Numeral.goesOn rest → ∀ file,
      ∃ t after, (Source.mk file (literal ++ rest)).tokens = t :: after ∧ t.kind = .number ∧
        t.lexeme = literal) ∧
    ∀ (s : Source) before t after, s.tokens = before ++ t :: after → t.kind = .number →
      s.content = before.flatMap Token.lexeme ++ (t.lexeme ++ after.flatMap Token.lexeme) ∧
      t.lexeme ∈ Numeral.literals ∧
      Bytes.Avoids Byte.isIdentifierContinue (after.flatMap Token.lexeme) ∧
      ∃ x, t.content = .number x ∧ x.IsOf t.lexeme := by
  refine ⟨fun literal h rest hrest file => Numeral.first_token_of_literal h hrest file, ?_⟩
  intro s before t after htokens hkind
  obtain ⟨k, rfl, hahead, hbehind⟩ := Lexer.exists_of_tokens_eq htokens
  obtain ⟨x, hcontent⟩ := Token.content_of_number hkind
  obtain ⟨hliteral, hnumber, havoids⟩ := Lexer.literal_of_number hcontent
  have hcontent' : s.content = before.flatMap Token.lexeme ++ k.ahead := hahead
  rw [hcontent', ← hbehind]
  exact ⟨congrArg _ (Lexer.lexeme_append_rest k).symm, hliteral, havoids, x, hcontent, hnumber⟩

/-- Of the least integer that has a form of its own, before another literal, and of the integer
below it, which stands for the same number as a double. -/
theorem the_least_signed_integer_and_the_one_below_it :
    let least : Bytes := utf8 "-9223372036854775808"
    let below : Bytes := utf8 "-9223372036854775809"
    let rest : Bytes := utf8 ", 1.5"
    least ∈ Numeral.literals ∧ below ∈ Numeral.literals ∧ Bytes.Avoids Numeral.goesOn rest ∧
      (∃ t after v, (Source.mk [] (least ++ rest)).tokens = t :: after ∧ t.lexeme = least ∧
        t.content = .number (.int64 v) ∧ v.toInt = -2 ^ 63) ∧
      ∃ t after n, (Source.mk [] (below ++ rest)).tokens = t :: after ∧ t.lexeme = below ∧
        t.content = .number (.double (Numeral.nearest n)) ∧ n.text = below ∧
        n.nearest = .ofInt (-2 ^ 63) := by
  intro least below rest
  have hrest : Bytes.Avoids Numeral.goesOn rest := Bytes.avoids_cons rfl
  obtain ⟨hfirst, hall⟩ := the_number_tokens_are_the_literals
  have htoken (k : Int) (literal : Bytes) (htext : (Numeral.ofInt k).text = literal) :
      literal ∈ Numeral.integers ∧ literal ∈ Numeral.literals ∧
        ∃ t after x, (Source.mk [] (literal ++ rest)).tokens = t :: after ∧ t.lexeme = literal ∧
          t.content = .number x ∧ x.IsOf literal := by
    have hformed := Numeral.wellFormed_ofInt k
    have hliteral : literal ∈ Numeral.literals := Numeral.mem_literals.mpr ⟨_, hformed, htext⟩
    obtain ⟨t, after, htokens, hkind, hlexeme⟩ := hfirst literal hliteral rest hrest []
    obtain ⟨-, -, -, x, hcontent, hnumber⟩ := hall _ [] t after htokens hkind
    exact ⟨Numeral.mem_integers.mpr ⟨_, hformed, rfl, rfl, htext⟩, hliteral, t, after, x, htokens,
      hlexeme, hcontent, hlexeme ▸ hnumber⟩
  have hleast : (Numeral.ofInt (-2 ^ 63)).text = least := by
    rw [Numeral.text_ofInt]
    decide +kernel
  have hbelow : (Numeral.ofInt (-2 ^ 63 - 1)).text = below := by
    rw [Numeral.text_ofInt]
    decide +kernel
  have hvalue : least.integer = -2 ^ 63 := by decide +kernel
  have hlower : below.integer < -2 ^ 63 := by decide +kernel
  obtain ⟨hinteger, hliteral, t, after, x, htokens, hlexeme, hcontent, hnumber⟩ :=
    htoken _ least hleast
  obtain ⟨-, hliteral', t', after', x', htokens', hlexeme', hcontent', hnumber'⟩ :=
    htoken _ below hbelow
  obtain ⟨v, rfl, hv⟩ := hnumber.int64 hinteger hvalue.ge (by rw [hvalue]; decide)
  obtain ⟨n, -, hn, rfl⟩ := hnumber'.double fun _ => .inl hlower
  have hsame : (Source.mk [] (below ++ rest)).tokens.head?.map Token.content =
      some (.number (.double (.ofInt (-2 ^ 63)))) := by decide +kernel
  have hnearest : n.nearest = .ofInt (-2 ^ 63) := by
    simpa [htokens', hcontent'] using hsame
  exact ⟨hliteral, hliteral', hrest, ⟨t, after, v, htokens, hlexeme, hcontent, hv.trans hvalue⟩,
    t', after', n, htokens', hlexeme', hcontent', hn, hnearest⟩

end ShapeTraits
