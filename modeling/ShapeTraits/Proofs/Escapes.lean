-- What escapes are made of: which bytes a code unit takes, what an item that begins with a
-- backslash can be, and a literal as one item after another.
import ShapeTraits.Proofs.JsonStrings

namespace ShapeTraits

/-- A hexadecimal digit of either case. -/
def Byte.isHexDigit (b : UInt8) : Bool := (hexValue? b).isSome

/-- A byte of a code unit, or of the two marks before one. -/
def Byte.isUnitByte (b : UInt8) : Bool := isHexDigit b || b == backslash || b == Escape.unitMark

namespace Escape

variable {text meant : Bytes} {unit low taken : Nat}

theorem hexValue_lt : ∀ b, (Byte.hexValue? b).all (· < 16) = true := by
  exact Byte.forall_of_lt (by decide +kernel)

/-- A code unit has four digits. -/
theorem codeUnit_digits (h : codeUnit? text = some unit) :
    unit < 0x10000 ∧ ∀ b ∈ text.take 4, Byte.isHexDigit b = true := by
  match text with
  | [] | [_] | [_, _] | [_, _, _] => cases h
  | a :: b :: c :: d :: rest =>
    have hdigit {b : UInt8} {v : Nat} (hb : Byte.hexValue? b = some v) :
        v < 16 ∧ Byte.isHexDigit b = true := by
      have hlt := hexValue_lt b
      rw [hb] at hlt
      exact ⟨by simpa using hlt, by rw [Byte.isHexDigit, hb]; rfl⟩
    simp only [codeUnit?, Option.bind_eq_bind, Option.bind_eq_some_iff] at h
    obtain ⟨p, hp, q, hq, r, hr, s, hs, hunit⟩ := h
    obtain ⟨hp, ha⟩ := hdigit hp
    obtain ⟨hq, hb⟩ := hdigit hq
    obtain ⟨hr, hc⟩ := hdigit hr
    obtain ⟨hs, hd⟩ := hdigit hs
    cases hunit
    refine ⟨by omega, ?_⟩
    simp [ha, hb, hc, hd]

theorem lowSurrogate_eq_some (h : lowSurrogate? text = some low) : ∃ rest,
    text = Byte.backslash :: unitMark :: rest ∧ codeUnit? rest = some low ∧
      isLowSurrogate low = true := by
  match text with
  | [] | [_] => cases h
  | b :: c :: rest =>
    simp only [lowSurrogate?] at h
    split at h
    · next hmark =>
      obtain ⟨rfl, rfl⟩ := hmark
      exact ⟨rest, rfl, Option.filter_eq_some_iff.mp h⟩
    · cases h

/-- A code unit stands for itself, or two of them stand for a surrogate pair. -/
theorem unicode_eq_ok (h : unicode text = .ok (meant, taken)) :
    (∃ unit, codeUnit? text = some unit ∧ ¬isHighSurrogate unit ∧ ¬isLowSurrogate unit ∧
      meant = encodeCodePoint unit ∧ taken = 5) ∨
    ∃ high low, codeUnit? text = some high ∧ isHighSurrogate high ∧
      lowSurrogate? (text.drop 4) = some low ∧
      meant = encodeCodePoint (combine high low) ∧ taken = 11 := by
  unfold unicode at h
  split at h
  · cases h
  · next unit hunit =>
    split at h
    · next hhigh =>
      split at h
      · next low hlow =>
        obtain ⟨rfl, rfl⟩ := Prod.mk.inj (Except.ok.inj h)
        exact .inr ⟨unit, low, hunit, hhigh, hlow, rfl, rfl⟩
      · cases h
    · next hhigh =>
      split at h
      · cases h
      · next hlow =>
        obtain ⟨rfl, rfl⟩ := Prod.mk.inj (Except.ok.inj h)
        exact .inl ⟨unit, hunit, hhigh, hlow, rfl, rfl⟩

/-- The marks and digits that the one or two code units take. -/
theorem unicode_bytes (h : unicode text = .ok (meant, taken)) :
    ∃ count, taken = count + 1 ∧ ∀ b ∈ text.take count, Byte.isUnitByte b = true := by
  have hdigits {text : Bytes} {unit : Nat} (hunit : codeUnit? text = some unit) :
      ∀ b ∈ text.take 4, Byte.isUnitByte b = true := by
    intro b hb
    rw [Byte.isUnitByte, (codeUnit_digits hunit).2 b hb]
    rfl
  rcases unicode_eq_ok h with ⟨unit, hunit, -, -, -, rfl⟩ | ⟨high, low, hhigh, -, hlow, -, rfl⟩
  · exact ⟨4, rfl, hdigits hunit⟩
  · obtain ⟨rest, hrest, hunit, -⟩ := lowSurrogate_eq_some hlow
    have hparts : text.take 10 = text.take 4 ++ (text.drop 4).take 6 :=
      List.take_add (i := 4) (j := 6)
    have hsecond : ∀ b ∈ (text.drop 4).take 6, Byte.isUnitByte b = true := by
      rw [hrest]
      exact List.forall_mem_cons.mpr ⟨rfl, List.forall_mem_cons.mpr ⟨rfl, hdigits hunit⟩⟩
    refine ⟨10, rfl, ?_⟩
    rw [hparts, List.forall_mem_append]
    exact ⟨hdigits hhigh, hsecond⟩

/-- What can stand behind a backslash: a letter or sign, a line end, or a code unit. -/
theorem item_eq_ok (h : item Byte.backslash text = .ok (meant, taken)) :
    ∃ b after, text = b :: after ∧
    ((∃ sign, named? b = some sign ∧ meant = [sign] ∧ taken = 1) ∨
      (b = Byte.lineFeed ∧ meant = [] ∧ taken = 1) ∨
      (b = Byte.carriageReturn ∧ meant = [] ∧
        taken = if after.head? = some Byte.lineFeed then 2 else 1) ∨
      (b = unitMark ∧ unicode after = .ok (meant, taken))) := by
  unfold item at h
  rw [if_neg (not_not_intro rfl)] at h
  cases text with
  | nil => cases h
  | cons b after =>
    refine ⟨b, after, rfl, ?_⟩
    dsimp only at h
    split at h
    · next sign hnamed =>
      cases h
      exact .inl ⟨sign, hnamed, rfl, rfl⟩
    split at h
    · next hfeed =>
      cases h
      exact .inr (.inl ⟨hfeed, rfl, rfl⟩)
    split at h
    · next hreturn =>
      cases h
      exact .inr (.inr (.inl ⟨hreturn, rfl, rfl⟩))
    split at h
    · next hmark => exact .inr (.inr (.inr ⟨hmark, h⟩))
    · cases h

/-! ## Literals -/

theorem decode_of_error {fault : Fault} (h : item Byte.backslash text = .error fault) :
    decode (Byte.backslash :: text) = .error fault := by
  rw [decode, h]

theorem item_plain {b : UInt8} (hb : b ≠ Byte.backslash) (text : Bytes) :
    item b text = .ok ([b], 0) := if_pos hb

theorem decode_plain {b : UInt8} (hb : b ≠ Byte.backslash) (text : Bytes) :
    decode (b :: text) = (decode text).map ([b] ++ ·) := decode_cons (item_plain hb text)

/-- A literal begins with a backslash that begins no item, with an escape, or with a byte
that stands for itself. -/
theorem byItems {motive : Bytes → Prop} (nil : motive [])
    (fault : ∀ rest other, item Byte.backslash rest = .error other →
      motive (Byte.backslash :: rest))
    (escape : ∀ rest meant taken, item Byte.backslash rest = .ok (meant, taken) →
      motive (rest.drop taken) → motive (Byte.backslash :: rest))
    (plain : ∀ b rest, b ≠ Byte.backslash → motive rest → motive (b :: rest)) (text : Bytes) :
    motive text := by
  fun_induction decode text with
  | case1 => exact nil
  | case2 first rest other hitem =>
    by_cases hfirst : first = Byte.backslash
    · subst hfirst
      exact fault rest other hitem
    · rw [item_plain hfirst] at hitem
      cases hitem
  | case3 first rest meant taken hitem ih =>
    by_cases hfirst : first = Byte.backslash
    · subst hfirst
      exact escape rest meant taken hitem ih
    · rw [item_plain hfirst] at hitem
      cases hitem
      exact plain first rest hfirst ih

theorem error_of_map {before : Bytes} {read : Except Fault Bytes} {fault : Fault}
    (h : read.map (before ++ ·) = .error fault) : read = .error fault := by
  cases read with
  | error other => exact h
  | ok meant => cases h

theorem ok_of_map {before : Bytes} {read : Except Fault Bytes}
    (h : read.map (before ++ ·) = .ok meant) :
    ∃ more, read = .ok more ∧ meant = before ++ more := by
  cases read with
  | error fault => cases h
  | ok more => exact ⟨more, rfl, (Except.ok.inj h).symm⟩

end Escape

end ShapeTraits
