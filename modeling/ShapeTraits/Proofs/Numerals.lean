-- Decimal digits and number literals: a number is the value of its digits, and a
-- well-formed numeral is read back from its text before anything that does not
-- go on with it.
import Mathlib.Algebra.Group.Nat.Defs
import ShapeTraits.Proofs.Spelling

namespace ShapeTraits

/-! ## Decimal digits -/

namespace Bytes

theorem isDigit_ofDigit : ∀ d < 10, Byte.isDigit (Byte.ofDigit d) = true := by decide

theorem toNat_ofDigit : ∀ d < 10, (Byte.ofDigit d).toNat - 0x30 = d := by decide

theorem ofDigit_ne_zero : ∀ d < 10, d ≠ 0 → Byte.ofDigit d ≠ Byte.zero := by decide

theorem digitsValue_append (a b : Bytes) :
    digitsValue (a ++ b) = digitsValue a * 10 ^ b.length + digitsValue b := by
  have hfold (start : Nat) : b.foldl (fun value d => value * 10 + (d.toNat - 0x30)) start =
      start * 10 ^ b.length + digitsValue b := by
    unfold digitsValue
    induction b generalizing start with
    | nil => simp
    | cons d b ih =>
      rw [List.foldl_cons, List.foldl_cons, ih, ih (0 * 10 + (d.toNat - 0x30)), List.length_cons,
        Nat.pow_succ]
      simp only [Nat.add_mul, Nat.zero_mul, Nat.zero_add]
      rw [Nat.mul_assoc, Nat.mul_comm 10, Nat.add_assoc]
  unfold digitsValue at hfold ⊢
  rw [List.foldl_append, hfold]

theorem ofNat_of_lt {n : Nat} (h : n < 10) : ofNat n = [Byte.ofDigit n] := by
  rw [ofNat, if_pos h]

theorem ofNat_of_le {n : Nat} (h : 10 ≤ n) :
    ofNat n = ofNat (n / 10) ++ [Byte.ofDigit (n % 10)] := by
  rw [ofNat, if_neg (Nat.not_lt.mpr h)]

theorem digitsValue_ofNat (n : Nat) : digitsValue (ofNat n) = n := by
  induction n using Nat.strongRecOn with
  | ind n ih =>
    rcases Nat.lt_or_ge n 10 with h | h
    · rw [ofNat_of_lt h]
      simp [digitsValue, toNat_ofDigit n h]
    · rw [ofNat_of_le h, digitsValue_append, ih _ (by omega)]
      simp [digitsValue, toNat_ofDigit (n % 10) (Nat.mod_lt n (by decide))]
      omega

theorem ofNat_digits (n : Nat) : ∀ b ∈ ofNat n, Byte.isDigit b = true := by
  induction n using Nat.strongRecOn with
  | ind n ih =>
    intro b hb
    rcases Nat.lt_or_ge n 10 with h | h
    · rw [ofNat_of_lt h, List.mem_singleton] at hb
      rw [hb]
      exact isDigit_ofDigit n h
    · rw [ofNat_of_le h, List.mem_append, List.mem_singleton] at hb
      rcases hb with hb | rfl
      · exact ih _ (by omega) b hb
      · exact isDigit_ofDigit _ (Nat.mod_lt n (by decide))

/-- No number but zero has a leading zero. -/
theorem ofNat_head {n : Nat} (h : n ≠ 0) : ∃ b rest, ofNat n = b :: rest ∧ b ≠ Byte.zero := by
  induction n using Nat.strongRecOn with
  | ind n ih =>
    rcases Nat.lt_or_ge n 10 with hn | hn
    · exact ⟨_, [], ofNat_of_lt hn, ofDigit_ne_zero n hn h⟩
    · obtain ⟨b, rest, hb, hne⟩ := ih (n / 10) (by omega) (by omega)
      exact ⟨b, rest ++ [Byte.ofDigit (n % 10)], by rw [ofNat_of_le hn, hb]; rfl, hne⟩

theorem ofNat_ne_nil (n : Nat) : ofNat n ≠ [] := by
  rcases Nat.lt_or_ge n 10 with h | h
  · rw [ofNat_of_lt h]
    exact List.cons_ne_nil _ _
  · rw [ofNat_of_le h]
    simp

theorem lt_pow_length_ofNat (n : Nat) : n < 10 ^ (ofNat n).length := by
  induction n using Nat.strongRecOn with
  | ind n ih =>
    rcases Nat.lt_or_ge n 10 with h | h
    · rw [ofNat_of_lt h]
      simpa using h
    · have := ih (n / 10) (by omega)
      rw [ofNat_of_le h, List.length_append, List.length_singleton, Nat.pow_succ]
      omega

theorem pow_length_ofNat_le {n : Nat} (h : 0 < n) : 10 ^ (ofNat n).length ≤ 10 * n := by
  induction n using Nat.strongRecOn with
  | ind n ih =>
    rcases Nat.lt_or_ge n 10 with hn | hn
    · rw [ofNat_of_lt hn, List.length_singleton, Nat.pow_one]
      omega
    · have := ih (n / 10) (by omega) (by omega)
      rw [ofNat_of_le hn, List.length_append, List.length_singleton, Nat.pow_succ]
      omega

end Bytes

/-! ## Well-formed numerals -/

namespace Numeral

/-- Digits, and at least one. -/
def Digits (text : Bytes) : Prop := text ≠ [] ∧ ∀ b ∈ text, Byte.isDigit b = true

/-- A whole part without leading zeros, and a fraction and an exponent with
digits, as far as they are there. -/
structure WellFormed (n : Numeral) : Prop where
  whole : Digits n.whole
  noZero : n.whole.head? = some Byte.zero → n.whole.length ≤ 1
  fraction : ∀ digits, n.fraction = some digits → Digits digits
  letter : ∀ e, n.exponent = some e → isExponentLetter e.letter = true
  sign : ∀ e, n.exponent = some e → ∀ s, e.sign = some s → isSign s = true
  exponent : ∀ e, n.exponent = some e → Digits e.digits

/-- The bytes that go on with a numeral. -/
def goesOn (b : UInt8) : Bool := Byte.isIdentifierContinue b || b == Byte.dot

/-- The text of a fraction. -/
def fractionText : Option Bytes → Bytes
  | none => []
  | some digits => Byte.dot :: digits

def exponentText : Option Exponent → Bytes
  | none => []
  | some e => e.text

theorem text_eq (n : Numeral) : n.text = (if n.negative then [Byte.minus] else []) ++
    (n.whole ++ (fractionText n.fraction ++ exponentText n.exponent)) := by
  unfold text
  rw [List.append_assoc, List.append_assoc]
  rfl

theorem not_goesOn : ∀ b, goesOn b = false → Byte.isDigit b = false ∧ b ≠ Byte.dot ∧
    isExponentLetter b = false ∧ Byte.isIdentifierContinue b = false := by
  exact Byte.forall_of_lt (by decide +kernel)

theorem exponentLetter_no_digit : ∀ b, isExponentLetter b = true → Byte.isDigit b = false ∧
    b ≠ Byte.dot := by
  exact Byte.forall_of_lt (by decide +kernel)

theorem digit_no_sign : ∀ b, Byte.isDigit b = true → b ≠ Byte.minus ∧ isSign b = false := by
  exact Byte.forall_of_lt (by decide +kernel)

variable {n : Numeral} {rest : Bytes}

theorem digits_zero : Digits [Byte.zero] :=
  ⟨List.cons_ne_nil _ _, List.forall_mem_singleton.mpr rfl⟩

theorem leadingDigits_append {digits : Bytes} (h : Digits digits)
    (hrest : Bytes.Avoids Byte.isDigit rest) : leadingDigits (digits ++ rest) = digits :=
  hrest.takeWhile_append h.2

/-! ## Reading the parts -/

theorem avoids_exponent {e : Option Exponent}
    (hletter : ∀ x, e = some x → isExponentLetter x.letter = true)
    (hrest : Bytes.Avoids goesOn rest) {bad : UInt8 → Bool}
    (hbad : ∀ b, goesOn b = false ∨ isExponentLetter b = true → bad b = false) :
    Bytes.Avoids bad (exponentText e ++ rest) := by
  cases e with
  | none => exact hrest.imp fun b hb => hbad b (.inl hb)
  | some x => exact Bytes.avoids_cons (hbad _ (.inr (hletter x rfl)))

theorem fraction_append {f : Option Bytes} (hf : ∀ digits, f = some digits → Digits digits)
    {more : Bytes} (hdigit : Bytes.Avoids Byte.isDigit more)
    (hdot : Bytes.Avoids (· == Byte.dot) more) : fraction? (fractionText f ++ more) = .ok f := by
  cases f with
  | none =>
    cases more with
    | nil => rfl
    | cons b more =>
      have hb : b ≠ Byte.dot := by simpa using hdot.head
      exact if_neg hb
  | some digits =>
    have hdigits := leadingDigits_append (hf digits rfl) hdigit
    have hne := (hf digits rfl).1
    simp only [fractionText, List.cons_append, fraction?, if_pos, hdigits]

/-- An optional sign is read before digits, which are no sign. -/
theorem filter_sign {sign : Option UInt8} {digits : Bytes}
    (hsign : ∀ s, sign = some s → isSign s = true)
    (hdigits : Digits digits) : (sign.toList ++ digits ++ rest).head?.filter isSign = sign := by
  cases sign with
  | none =>
    obtain ⟨d, ds, rfl⟩ := List.exists_cons_of_ne_nil hdigits.1
    have hd := (digit_no_sign d (hdigits.2 d List.mem_cons_self)).2
    simp [hd]
  | some s =>
    have hs : isSign s = true := hsign s rfl
    simp [hs]

theorem exponent_append {e : Option Exponent}
    (hletter : ∀ x, e = some x → isExponentLetter x.letter = true)
    (hsign : ∀ x, e = some x → ∀ s, x.sign = some s → isSign s = true)
    (hdigits : ∀ x, e = some x → Digits x.digits) (hrest : Bytes.Avoids goesOn rest) :
    exponent? (exponentText e ++ rest) = .ok e := by
  cases e with
  | none =>
    cases rest with
    | nil => rfl
    | cons b rest =>
      have hb := (not_goesOn b hrest.head).2.2.1
      simp [exponentText, exponent?, hb]
  | some x =>
    obtain ⟨letter, sign, digits⟩ := x
    have hl : isExponentLetter letter = true := hletter _ rfl
    have hd : Digits digits := hdigits _ rfl
    have hdigit : Bytes.Avoids Byte.isDigit rest := hrest.imp fun b hb => (not_goesOn b hb).1
    have htake := leadingDigits_append hd hdigit
    have hdrop : (sign.toList ++ digits ++ rest).drop sign.toList.length = digits ++ rest := by
      rw [List.append_assoc]
      exact List.drop_left
    have htext : exponentText (some ⟨letter, sign, digits⟩) ++ rest =
        letter :: (sign.toList ++ digits ++ rest) := by
      simp [exponentText, Exponent.text]
    rw [htext, exponent?, if_pos hl]
    simp only [filter_sign (hsign _ rfl) hd, hdrop, htake]
    cases digits with
    | nil => exact absurd rfl hd.1
    | cons d digits => rfl

/-! ## Reading the whole -/

theorem text_append (n : Numeral) (rest : Bytes) : n.text ++ rest =
    (if n.negative then [Byte.minus] else []) ++
      (n.whole ++ (fractionText n.fraction ++ (exponentText n.exponent ++ rest))) := by
  rw [text_eq]
  simp only [List.append_assoc]

/-- A sign before digits is a minus exactly for what is negative. -/
theorem sign_append (negative : Bool) {digits : Bytes} (h : Digits digits) (more : Bytes) :
    (((if negative then [Byte.minus] else []) ++ (digits ++ more)).head? == some Byte.minus) =
      negative := by
  obtain ⟨d, ds, rfl⟩ := List.exists_cons_of_ne_nil h.1
  have hminus : d ≠ Byte.minus := (digit_no_sign d (h.2 d List.mem_cons_self)).1
  cases negative with
  | true => rfl
  | false => simpa using hminus

theorem drop_sign (negative : Bool) (more : Bytes) :
    ((if negative then [Byte.minus] else []) ++ more).drop negative.toNat = more := by
  cases negative <;> rfl

theorem drop_fraction (negative : Bool) (whole : Bytes) (fraction : Option Bytes)
    (exponent : Option Exponent) (rest : Bytes) :
    ((Numeral.mk negative whole fraction exponent).text ++ rest).drop
      (Numeral.mk negative whole fraction none).text.length = exponentText exponent ++ rest := by
  have hsplit : (Numeral.mk negative whole fraction exponent).text ++ rest =
      (Numeral.mk negative whole fraction none).text ++ (exponentText exponent ++ rest) := by
    rw [text_eq, text_eq]
    simp [exponentText]
  rw [hsplit]
  exact List.drop_left

theorem avoids_fraction {f : Option Bytes} {more : Bytes} (hmore : Bytes.Avoids Byte.isDigit more) :
    Bytes.Avoids Byte.isDigit (fractionText f ++ more) := by
  cases f with
  | none => exact hmore
  | some digits => exact Bytes.avoids_cons rfl

/-- A well-formed numeral is read from its text, if nothing goes on with it. -/
theorem read_append (h : n.WellFormed) (hrest : Bytes.Avoids goesOn rest) :
    read (n.text ++ rest) = .ok n := by
  obtain ⟨negative, whole, fraction, exponent⟩ := n
  obtain ⟨hwhole, hzero, hfraction, hletter, hsign, hexponent⟩ := h
  dsimp only at hwhole hzero hfraction hletter hsign hexponent
  have hdigit : Bytes.Avoids Byte.isDigit (exponentText exponent ++ rest) :=
    avoids_exponent hletter hrest fun b hb =>
      hb.elim (fun h => (not_goesOn b h).1) fun h => (exponentLetter_no_digit b h).1
  have hdot : Bytes.Avoids (· == Byte.dot) (exponentText exponent ++ rest) :=
    avoids_exponent hletter hrest fun b hb => beq_eq_false_iff_ne.mpr
      (hb.elim (fun h => (not_goesOn b h).2.1) fun h => (exponentLetter_no_digit b h).2)
  generalize htext : (Numeral.mk negative whole fraction exponent).text ++ rest = text
  have hparts := htext.symm.trans (text_append _ rest)
  have hnegative : (text.head? == some Byte.minus) = negative := by
    rw [hparts]
    exact sign_append negative hwhole _
  have hdropsign : text.drop negative.toNat =
      whole ++ (fractionText fraction ++ (exponentText exponent ++ rest)) := by
    rw [hparts]
    exact drop_sign negative _
  have hlead : leadingDigits (text.drop negative.toNat) = whole := by
    rw [hdropsign, leadingDigits_append hwhole (avoids_fraction hdigit)]
  have hdropwhole : text.drop (negative.toNat + whole.length) =
      fractionText fraction ++ (exponentText exponent ++ rest) := by
    rw [← List.drop_drop, hdropsign]
    exact List.drop_left
  have hdropfraction : text.drop (Numeral.mk negative whole fraction none).text.length =
      exponentText exponent ++ rest := by
    rw [← htext]
    exact drop_fraction negative whole fraction exponent rest
  have hdropall : text.drop (Numeral.mk negative whole fraction exponent).text.length = rest := by
    rw [← htext]
    exact List.drop_left
  have hletters : rest.takeWhile Byte.isIdentifierContinue = [] :=
    (hrest.imp fun b hb => (not_goesOn b hb).2.2.2).takeWhile_eq
  have hleading : ¬ (whole.head? = some Byte.zero ∧ 1 < whole.length) :=
    fun h => absurd (hzero h.1) (Nat.not_le.mpr h.2)
  simp only [read, hnegative, hlead, hdropwhole, hdropfraction, hdropall, hletters,
    hwhole.1, if_false, if_neg hleading, fraction_append hfraction hdigit hdot,
    exponent_append hletter hsign hexponent hrest, List.head?_nil, Option.any_none,
    Bool.false_eq_true]

theorem text_head (h : n.WellFormed) : ∃ b more, n.text = b :: more ∧
    (Byte.isDigit b = true ∨ b = Byte.minus) := by
  obtain ⟨d, ds, hd⟩ := List.exists_cons_of_ne_nil h.whole.1
  rw [text_eq, hd]
  cases n.negative with
  | true => exact ⟨_, _, rfl, .inr rfl⟩
  | false => exact ⟨_, _, rfl, .inl (h.whole.2 d (by simp [hd]))⟩

theorem starts_no_other_token : ∀ b, Byte.isDigit b = true ∨ b = Byte.minus →
    Byte.isBlank b = false ∧ b ≠ Byte.lineFeed ∧ b ≠ Byte.carriageReturn ∧ b ≠ Byte.comma ∧
      b ≠ Byte.slash ∧ Byte.isIdentifierStart b = false := by
  exact Byte.forall_of_lt (by decide +kernel)

/-- A well-formed numeral is one token of its number. -/
theorem spells (h : n.WellFormed) : Spells n.text goesOn (Spells.One (.number n.value) n.text) := by
  obtain ⟨b, more, htext, hb⟩ := text_head h
  refine Spells.token (by simp [htext]) (fun rest hrest => ?_) rfl
  obtain ⟨hblank, hfeed, hreturn, hcomma, hslash, hstart⟩ := starts_no_other_token b hb
  have hnext : Scan.next (n.text ++ rest) = Scan.numeral (n.text ++ rest) := by
    have hscan : Scan.next (b :: (more ++ rest)) = Scan.token b (more ++ rest) := rfl
    rw [htext, List.cons_append, hscan, Scan.token]
    simp only [hblank, hfeed, hreturn, hcomma, hslash, hstart, hb, false_and, if_false, if_true,
      Bool.false_eq_true]
  rw [hnext, Scan.numeral, read_append h hrest]

/-! ## What is read -/

section Reading

variable {text p q more : Bytes} {f : Option Bytes} {e : Option Exponent}

/-- The sign and the digits that a text begins with. -/
structure Begins (text : Bytes) (n : Numeral) : Prop where
  negative : (text.head? == some Byte.minus) = n.negative
  whole : leadingDigits (text.drop n.negative.toNat) = n.whole

/-- What one part after another reads from a text. -/
structure Parts (text : Bytes) (n : Numeral) : Prop extends Begins text n where
  present : n.whole ≠ []
  noZero : ¬(n.whole.head? = some Byte.zero ∧ 1 < n.whole.length)
  fraction : fraction? (text.drop (n.negative.toNat + n.whole.length)) = .ok n.fraction
  exponent : exponent? (text.drop (Numeral.mk n.negative n.whole n.fraction none).text.length) =
    .ok n.exponent
  apart : ((text.drop n.text.length).takeWhile Byte.isIdentifierContinue).head?.any
    Byte.isIdentifierStart = false

/-- A numeral is read exactly if its parts are. -/
theorem read_eq_ok : read text = .ok n ↔ Parts text n := by
  constructor
  · intro h
    simp only [read] at h
    (repeat' split at h) <;> cases h
    exact ⟨⟨rfl, rfl⟩, ‹_›, ‹_›, ‹_›, ‹_›, Bool.eq_false_iff.mpr ‹_›⟩
  · rintro ⟨⟨hnegative, hwhole⟩, hpresent, hzero, hfraction, hexponent, hapart⟩
    simp only [read, hnegative, hwhole, hpresent, hzero, hfraction, hexponent, hapart, if_false,
      Bool.false_eq_true]

/-- One part behind another. -/
theorem append_starts (hp : p <+: text) (hq : q <+: text.drop p.length) : p ++ q <+: text := by
  obtain ⟨more, rfl⟩ := hp
  rw [List.drop_left] at hq
  exact (List.prefix_append_right_inj p).mpr hq

theorem leadingDigits_starts (text : Bytes) : leadingDigits text <+: text := List.takeWhile_prefix _

theorem sign_starts (text : Bytes) : (text.head?.filter isSign).toList <+: text := by
  cases text with
  | nil => exact List.nil_prefix
  | cons b rest => cases h : isSign b <;> simp [Option.filter, h]

theorem fraction_starts (h : fraction? text = .ok f) : fractionText f <+: text := by
  cases text with
  | nil =>
    cases h
    exact List.nil_prefix
  | cons b rest =>
    simp only [fraction?] at h
    (repeat' split at h) <;> cases h
    · rename_i hb _ _
      exact List.cons_prefix_cons.mpr ⟨hb.symm, leadingDigits_starts rest⟩
    · exact List.nil_prefix

theorem exponent_starts (h : exponent? text = .ok e) : exponentText e <+: text := by
  cases text with
  | nil =>
    cases h
    exact List.nil_prefix
  | cons b rest =>
    simp only [exponent?] at h
    (repeat' split at h) <;> cases h
    · exact List.cons_prefix_cons.mpr
        ⟨rfl, append_starts (sign_starts rest) (leadingDigits_starts _)⟩
    · exact List.nil_prefix

theorem length_minus (negative : Bool) :
    (if negative then [Byte.minus] else []).length = negative.toNat := by
  cases negative <;> rfl

section Begins

variable (h : Begins text n)

include h

theorem Begins.minus_starts : (if n.negative then [Byte.minus] else []) <+: text := by
  rw [← h.negative]
  cases text with
  | nil => exact List.nil_prefix
  | cons b rest =>
    split
    · rename_i hb
      exact List.cons_prefix_cons.mpr ⟨(by simpa using hb : b = Byte.minus).symm, List.nil_prefix⟩
    · exact List.nil_prefix

theorem Begins.whole_starts : (if n.negative then [Byte.minus] else []) ++ n.whole <+: text := by
  refine append_starts h.minus_starts ?_
  rw [length_minus, ← h.whole]
  exact leadingDigits_starts _

theorem Begins.whole_le : n.negative.toNat + n.whole.length ≤ text.length := by
  have hle := h.whole_starts.length_le
  rwa [List.length_append, length_minus] at hle

variable (hfraction : fraction? (text.drop (n.negative.toNat + n.whole.length)) = .ok n.fraction)

include hfraction

theorem Begins.fraction_starts : (Numeral.mk n.negative n.whole n.fraction none).text <+: text := by
  have hstarts := append_starts h.whole_starts
    (Numeral.fraction_starts (by rw [List.length_append, length_minus]; exact hfraction))
  rwa [text_eq, exponentText, List.append_nil, ← List.append_assoc]

theorem Begins.text_starts (hexponent : exponent?
    (text.drop (Numeral.mk n.negative n.whole n.fraction none).text.length) = .ok n.exponent) :
    n.text <+: text := by
  have hstarts := append_starts (h.fraction_starts hfraction) (Numeral.exponent_starts hexponent)
  rw [text_eq] at hstarts ⊢
  simpa [exponentText, List.append_assoc] using hstarts

end Begins

/-- A text begins with what is read from it. -/
theorem Parts.text_starts (h : Parts text n) : n.text <+: text :=
  h.toBegins.text_starts h.fraction h.exponent

/-! ## What is read is well-formed -/

theorem digits_leadingDigits (h : leadingDigits text ≠ []) : Digits (leadingDigits text) :=
  ⟨h, List.all_eq_true.mp List.all_takeWhile⟩

theorem fraction_digits {digits : Bytes} (h : fraction? text = .ok (some digits)) :
    Digits digits := by
  cases text with
  | nil => cases h
  | cons b rest =>
    simp only [fraction?] at h
    (repeat' split at h) <;> cases h
    next hdigits => exact digits_leadingDigits hdigits

theorem exponent_wellFormed {x : Exponent} (h : exponent? text = .ok (some x)) :
    isExponentLetter x.letter = true ∧ (∀ s, x.sign = some s → isSign s = true) ∧
      Digits x.digits := by
  cases text with
  | nil => cases h
  | cons b rest =>
    simp only [exponent?] at h
    (repeat' split at h) <;> cases h
    exact ⟨‹_›, fun s hs => (Option.filter_eq_some_iff.mp hs).2, digits_leadingDigits ‹_›⟩

theorem Parts.wellFormed (h : Parts text n) : n.WellFormed where
  whole := h.whole ▸ digits_leadingDigits (h.whole.symm ▸ h.present)
  noZero := fun hzero => Nat.not_lt.mp fun hlong => h.noZero ⟨hzero, hlong⟩
  fraction := fun _ hdigits => fraction_digits (hdigits ▸ h.fraction)
  letter := fun _ hx => (exponent_wellFormed (hx ▸ h.exponent)).1
  sign := fun _ hx => (exponent_wellFormed (hx ▸ h.exponent)).2.1
  exponent := fun _ hx => (exponent_wellFormed (hx ▸ h.exponent)).2.2

/-! ## What is read once more is there -/

/-- The bytes that could go on with a part of a numeral. -/
def couldGoOn (b : UInt8) : Bool := goesOn b || isSign b

theorem not_couldGoOn : ∀ b, couldGoOn b = false → Byte.isDigit b = false ∧ b ≠ Byte.dot ∧
    isExponentLetter b = false ∧ isSign b = false ∧ b ≠ Byte.minus ∧
    Byte.isIdentifierContinue b = false := by
  exact Byte.forall_of_lt (by decide +kernel)

variable (hmore : Bytes.Avoids couldGoOn more)

include hmore

theorem leadingDigits_append_eq (text : Bytes) :
    leadingDigits (text ++ more) = leadingDigits text :=
  (hmore.imp fun b hb => (not_couldGoOn b hb).1).takeWhile_append_eq text

theorem fraction_append_eq (text : Bytes) : fraction? (text ++ more) = fraction? text := by
  cases text with
  | nil =>
    cases more with
    | nil => rfl
    | cons b more => exact if_neg (not_couldGoOn b hmore.head).2.1
  | cons b rest => rw [List.cons_append, fraction?, fraction?, leadingDigits_append_eq hmore]

theorem sign_append_eq (text : Bytes) :
    (text ++ more).head?.filter isSign = text.head?.filter isSign := by
  cases text with
  | cons b rest => rfl
  | nil =>
    cases more with
    | nil => rfl
    | cons b more =>
      have hb := (not_couldGoOn b hmore.head).2.2.2.1
      simp [hb]

theorem exponent_append_eq (text : Bytes) : exponent? (text ++ more) = exponent? text := by
  cases text with
  | nil =>
    cases more with
    | nil => rfl
    | cons b more =>
      have hb := (not_couldGoOn b hmore.head).2.2.1
      simp [exponent?, hb]
  | cons b rest =>
    have hsign := (sign_starts rest).length_le
    simp only [List.cons_append, exponent?, sign_append_eq hmore,
      List.drop_append_of_le_length hsign, leadingDigits_append_eq hmore]

theorem negative_append_eq (text : Bytes) :
    ((text ++ more).head? == some Byte.minus) = (text.head? == some Byte.minus) := by
  cases text with
  | cons b rest => rfl
  | nil =>
    cases more with
    | nil => rfl
    | cons b more =>
      have hb := (not_couldGoOn b hmore.head).2.2.2.2.1
      simp [hb]

/-- From a text the same is read before other text that could not go on with any part
of a numeral. -/
theorem read_append_eq (text : Bytes) : read (text ++ more) = read text := by
  simp only [read, negative_append_eq hmore]
  generalize hnegative : (text.head? == some Byte.minus) = negative
  have hminus : negative.toNat ≤ text.length := by
    cases text with
    | nil =>
      rw [← hnegative]
      exact Nat.le_refl 0
    | cons b rest => exact Nat.le_trans (Bool.toNat_le negative) (Nat.succ_pos _)
  rw [List.drop_append_of_le_length hminus, leadingDigits_append_eq hmore]
  generalize hwhole : leadingDigits (text.drop negative.toNat) = whole
  have hbegins (fraction : Option Bytes) (exponent : Option Exponent) :
      Begins text ⟨negative, whole, fraction, exponent⟩ := ⟨hnegative, hwhole⟩
  have hwhole : negative.toNat + whole.length ≤ text.length := (hbegins none none).whole_le
  split
  · rfl
  split
  · rfl
  rw [List.drop_append_of_le_length hwhole, fraction_append_eq hmore]
  split
  · rfl
  · next fraction hfraction =>
    have hle : (Numeral.mk negative whole fraction none).text.length ≤ text.length :=
      ((hbegins fraction none).fraction_starts hfraction).length_le
    rw [List.drop_append_of_le_length hle, exponent_append_eq hmore]
    split
    · rfl
    · next exponent hexponent =>
      have hle : (Numeral.mk negative whole fraction exponent).text.length ≤ text.length :=
        ((hbegins fraction exponent).text_starts hfraction hexponent).length_le
      rw [List.drop_append_of_le_length hle,
        (hmore.imp fun b hb => (not_couldGoOn b hb).2.2.2.2.2).takeWhile_append_eq]

end Reading

/-! ## Integers -/

/-- The numeral of a whole number. -/
def ofInt (k : Int) : Numeral := ⟨k < 0, Bytes.ofNat k.natAbs, none, none⟩

theorem digits_ofNat (k : Nat) : Digits (Bytes.ofNat k) :=
  ⟨Bytes.ofNat_ne_nil k, Bytes.ofNat_digits k⟩

theorem wellFormed_ofInt (k : Int) : (ofInt k).WellFormed where
  whole := digits_ofNat _
  noZero := by
    intro hhead
    by_cases hk : k.natAbs = 0
    · simp [ofInt, hk, Bytes.ofNat_of_lt]
    · obtain ⟨b, more, hb, hne⟩ := Bytes.ofNat_head hk
      simp [ofInt, hb] at hhead
      exact absurd hhead hne
  fraction := nofun
  letter := nofun
  sign := nofun
  exponent := nofun

theorem text_ofInt (k : Int) : (ofInt k).text = Bytes.ofInt k := by
  rw [text_eq, Bytes.ofInt]
  by_cases hk : k < 0 <;> simp [ofInt, fractionText, exponentText, hk]

theorem value_ofInt (k : Int) : (ofInt k).value = .ofDigits (k < 0) k.natAbs := by
  simp [value, ofInt, Bytes.digitsValue_ofNat]

end Numeral

end ShapeTraits
