-- Valid UTF-8. A document is cut into tokens, and literals into lines and items, only
-- beside bytes that are characters by themselves, and escapes stand for whole characters:
-- what the tokens of a valid document stand for is valid.
import ShapeTraits.Proofs.DoubleText
import ShapeTraits.Proofs.Escapes
import ShapeTraits.Proofs.Lines
import ShapeTraits.Proofs.Seam

namespace ShapeTraits

/-! ## Valid text -/

/-- Valid UTF-8: the characters of some text, each in its shortest form. Surrogates are no
characters. -/
def Bytes.IsUtf8 (text : Bytes) : Prop := text.toByteArray.IsValidUTF8

/-- A byte that is a character by itself. -/
def Byte.isAscii (b : UInt8) : Bool := b < 0x80

open Byte (isAscii)

namespace Bytes

variable {a b text : Bytes} {first : UInt8}

theorem isUtf8_iff :
    IsUtf8 text ↔ ∃ chars : List Char, text = chars.flatMap String.utf8EncodeChar := by
  unfold IsUtf8
  constructor
  · rintro ⟨chars, h⟩
    exact ⟨chars, List.toByteArray_inj.mp h⟩
  · rintro ⟨chars, rfl⟩
    exact ⟨chars, rfl⟩

theorem isUtf8_nil : IsUtf8 [] := isUtf8_iff.mpr ⟨[], rfl⟩

theorem IsUtf8.append (ha : IsUtf8 a) (hb : IsUtf8 b) : IsUtf8 (a ++ b) := by
  unfold IsUtf8
  rw [List.toByteArray_append]
  exact ByteArray.IsValidUTF8.append ha hb

theorem isUtf8_char (c : Char) : IsUtf8 (String.utf8EncodeChar c) :=
  isUtf8_iff.mpr ⟨[c], (List.append_nil _).symm⟩

theorem isUtf8_utf8 (text : String) : IsUtf8 (utf8 text) := by
  have hbytes : (utf8 text).toByteArray = text.toByteArray := by
    rw [ByteArray.ext_iff, List.data_toByteArray, utf8, Array.toArray_toList]
  unfold IsUtf8
  rw [hbytes]
  exact text.isValidUTF8

theorem isUtf8_joinWith {separator : Bytes} (hseparator : IsUtf8 separator) {pieces : List Bytes}
    (h : ∀ piece ∈ pieces, IsUtf8 piece) : IsUtf8 (joinWith separator pieces) := by
  induction pieces with
  | nil => exact isUtf8_nil
  | cons piece pieces ih =>
    obtain ⟨hpiece, hpieces⟩ := List.forall_mem_cons.mp h
    cases pieces with
    | nil => exact hpiece
    | cons next pieces => exact (hpiece.append hseparator).append (ih hpieces)

/-! ## Characters and bytes -/

/-- A character is one ASCII byte, or no byte of it is one. -/
theorem char_bytes (c : Char) : (∃ b, String.utf8EncodeChar c = [b]) ∨
    ∀ b ∈ String.utf8EncodeChar c, isAscii b = false := by
  have hhigh (k : Nat) (hlow : 128 ≤ k) (hbyte : k < 256) : isAscii (UInt8.ofNat k) = false := by
    have hvalue : (UInt8.ofNat k).toNat = k := UInt8.toNat_ofNat_of_lt' hbyte
    unfold isAscii
    rw [decide_eq_false_iff_not, UInt8.lt_iff_toNat_lt, hvalue]
    exact Nat.not_lt.mpr hlow
  unfold String.utf8EncodeChar
  dsimp only
  split
  · exact .inl ⟨_, rfl⟩
  right
  repeat' split
  all_goals
    simp only [List.forall_mem_cons, List.not_mem_nil, false_implies, implies_true, and_true]
    and_intros
  all_goals apply hhigh <;> omega

theorem encodeCodePoint_eq {point : Nat} (h : point.isValidChar) :
    encodeCodePoint point = String.utf8EncodeChar (Char.ofNat point) := by
  have hvalue : (Char.ofNat point).val.toNat = point := by
    rw [Char.ofNat, dif_pos h]
    rfl
  simp only [encodeCodePoint, String.utf8EncodeChar, hvalue]
  simp only [Nat.isValidChar] at h
  repeat' split
  all_goals first
    | omega
    | simp only [List.cons.injEq, and_true]
  all_goals
    and_intros
  all_goals exact congrArg UInt8.ofNat (by omega)

theorem encodeCodePoint_isUtf8 {point : Nat} (h : point.isValidChar) :
    IsUtf8 (encodeCodePoint point) := by
  rw [encodeCodePoint_eq h]
  exact isUtf8_char _

theorem isUtf8_of_ascii (h : text.all isAscii = true) : IsUtf8 text := by
  induction text with
  | nil => exact isUtf8_nil
  | cons b text ih =>
    obtain ⟨hb, htext⟩ := Bool.and_eq_true_iff.mp h
    have hlt : b.toNat < 128 := UInt8.lt_iff_toNat_lt.mp (of_decide_eq_true hb)
    have hone : IsUtf8 [b] :=
      Escape.encodeCodePoint_of_lt hlt ▸ encodeCodePoint_isUtf8 (.inl (by omega))
    exact hone.append (ih htext)

/-- Beside an ASCII byte no character is cut. -/
theorem IsUtf8.split {rest : Bytes} (h : IsUtf8 (a ++ first :: rest))
    (hfirst : isAscii first = true) :
    IsUtf8 a ∧ IsUtf8 rest := by
  obtain ⟨chars, hchars⟩ := isUtf8_iff.mp h
  clear h
  induction chars generalizing a with
  | nil => simp at hchars
  | cons c chars ih =>
    rw [List.flatMap_cons] at hchars
    rcases List.append_eq_append_iff.mp hchars with ⟨more, hmore, hrest⟩ | ⟨more, rfl, hrest⟩
    · -- The character goes on behind `a`, with the byte in it or next to it.
      cases more with
      | nil =>
        rw [List.append_nil] at hmore
        obtain ⟨-, hbehind⟩ := ih (a := []) hrest
        exact ⟨hmore ▸ isUtf8_char c, hbehind⟩
      | cons b more =>
        obtain ⟨rfl, hbehind⟩ := List.cons.inj hrest
        rcases char_bytes c with ⟨b, hb⟩ | hhigh
        · have halone : a = [] ∧ more = [] := by
            rw [hb] at hmore
            cases a with
            | nil => exact ⟨rfl, (List.cons.inj hmore).2.symm⟩
            | cons x a => simp at hmore
          obtain ⟨rfl, rfl⟩ := halone
          exact ⟨isUtf8_nil, isUtf8_iff.mpr ⟨chars, hbehind⟩⟩
        · have hfalse := hhigh first (by rw [hmore]; simp)
          rw [hfirst] at hfalse
          cases hfalse
    · obtain ⟨hmore, hbehind⟩ := ih hrest.symm
      exact ⟨(isUtf8_char c).append hmore, hbehind⟩

theorem IsUtf8.tail (h : IsUtf8 (first :: text)) (hfirst : isAscii first = true) : IsUtf8 text :=
  (IsUtf8.split (a := []) h hfirst).2

/-- Before an ASCII byte, or the end, no character is cut. -/
theorem IsUtf8.left (h : IsUtf8 (a ++ b)) (hb : Avoids (!isAscii ·) b) : IsUtf8 a := by
  cases b with
  | nil => rwa [List.append_nil] at h
  | cons first b => exact (h.split (by simpa using hb.head)).1

theorem IsUtf8.right (h : IsUtf8 (a ++ b)) (ha : ∀ c ∈ a, isAscii c = true) : IsUtf8 b := by
  induction a with
  | nil => exact h
  | cons c a ih =>
    obtain ⟨hc, ha⟩ := List.forall_mem_cons.mp ha
    exact ih (IsUtf8.tail h hc) ha

theorem IsUtf8.drop (h : IsUtf8 text) {count : Nat}
    (hascii : ∀ c ∈ text.take count, isAscii c = true) :
    IsUtf8 (text.drop count) :=
  IsUtf8.right (a := text.take count) (by rwa [List.take_append_drop]) hascii

theorem IsUtf8.takeWhile (h : IsUtf8 text) {p : UInt8 → Bool}
    (hp : ∀ b, p b = false → isAscii b = true) :
    IsUtf8 (text.takeWhile p) := by
  refine IsUtf8.left (b := text.dropWhile p) (by rwa [List.takeWhile_append_dropWhile])
    fun b hb => ?_
  have hstop := List.head?_dropWhile_not p text
  rw [hb] at hstop
  simp [hp b (by simpa using hstop)]

theorem IsUtf8.dropTrailing (h : IsUtf8 text) {p : UInt8 → Bool}
    (hp : ∀ b, p b = true → isAscii b = true) :
    IsUtf8 (dropTrailing p text) := by
  obtain ⟨dropped, htext, hdropped⟩ := dropTrailing_append p text
  refine IsUtf8.left (b := dropped) (htext ▸ h) fun b hb => ?_
  simp [hp b (hdropped b (List.mem_of_head? hb))]

end Bytes

open Bytes

/-! ## Escapes -/

namespace Escape

variable {text meant : Bytes} {taken : Nat}

theorem unitByte_ascii : ∀ b, Byte.isUnitByte b = true → isAscii b = true := by
  exact Byte.forall_of_lt (by decide +kernel)

theorem named_ascii : ∀ b, (named? b).all (fun meant => isAscii meant && isAscii b) = true := by
  exact Byte.forall_of_lt (by decide +kernel)

/-- A surrogate stands only for a character together with the other half. -/
theorem unicode_isUtf8 (h : unicode text = .ok (meant, taken)) : IsUtf8 meant := by
  rcases unicode_eq_ok h with
    ⟨unit, hunit, hhigh, hlow, rfl, -⟩ | ⟨high, low, -, hhalf, hlow, hmeant, -⟩
  · have hbound := (codeUnit_digits hunit).1
    simp only [isHighSurrogate, isLowSurrogate, Bool.and_eq_true, decide_eq_true_eq] at hhigh hlow
    refine encodeCodePoint_isUtf8 ?_
    unfold Nat.isValidChar
    omega
  · obtain ⟨-, -, -, hother⟩ := lowSurrogate_eq_some hlow
    simp only [isHighSurrogate, isLowSurrogate, Bool.and_eq_true, decide_eq_true_eq] at hhalf hother
    rw [hmeant]
    refine encodeCodePoint_isUtf8 (.inr ?_)
    unfold combine
    omega

/-- An escape stands for characters, and is itself made of bytes that are some. -/
theorem item_isUtf8 (h : item Byte.backslash text = .ok (meant, taken)) :
    IsUtf8 meant ∧ ∀ b ∈ text.take taken, isAscii b = true := by
  obtain ⟨b, after, rfl,
      ⟨sign, hnamed, rfl, rfl⟩ | ⟨rfl, rfl, rfl⟩ | ⟨rfl, rfl, rfl⟩ | ⟨rfl, hunit⟩⟩ :=
    item_eq_ok h
  · have hascii := named_ascii b
    rw [hnamed] at hascii
    obtain ⟨hsign, hb⟩ : isAscii sign = true ∧ isAscii b = true := by simpa using hascii
    exact ⟨isUtf8_of_ascii (by simp [hsign]), List.forall_mem_singleton.mpr hb⟩
  · exact ⟨isUtf8_nil, List.forall_mem_singleton.mpr rfl⟩
  · refine ⟨isUtf8_nil, ?_⟩
    split
    · next hhead =>
      obtain ⟨more, rfl⟩ := List.head?_eq_some_iff.mp hhead
      exact List.forall_mem_cons.mpr ⟨rfl, List.forall_mem_singleton.mpr rfl⟩
    · exact List.forall_mem_singleton.mpr rfl
  · obtain ⟨count, rfl, hbytes⟩ := unicode_bytes hunit
    exact ⟨unicode_isUtf8 hunit,
      List.forall_mem_cons.mpr ⟨rfl, fun b hb => unitByte_ascii b (hbytes b hb)⟩⟩

/-- Decoding keeps text valid: no byte outside of an escape is changed, and beside an
escape no character is cut. -/
theorem decode_isUtf8 (before : Bytes) (h : IsUtf8 (before ++ text))
    (hdecode : decode text = .ok meant) :
    IsUtf8 (before ++ meant) := by
  -- `before` holds the start of a character whose bytes are items of their own.
  induction text using byItems generalizing before meant with
  | nil =>
    rw [decode] at hdecode
    cases hdecode
    exact h
  | fault rest other hitem =>
    rw [decode_of_error hitem] at hdecode
    cases hdecode
  | escape rest itself taken hitem ih =>
    rw [decode_cons hitem] at hdecode
    obtain ⟨more, hmore, rfl⟩ := ok_of_map hdecode
    obtain ⟨hbefore, hrest⟩ := h.split rfl
    obtain ⟨hitself, hascii⟩ := item_isUtf8 hitem
    exact hbefore.append (hitself.append (ih [] (hrest.drop hascii) hmore))
  | plain b rest hb ih =>
    rw [decode_plain hb] at hdecode
    obtain ⟨more, hmore, rfl⟩ := ok_of_map hdecode
    rw [← List.append_assoc]
    exact ih (before ++ [b]) (by simpa using h) hmore

end Escape

/-! ## Text blocks -/

namespace TextBlock

theorem blank_ascii : ∀ b, Byte.isBlank b = true → isAscii b = true := by
  exact Byte.forall_of_lt (by decide +kernel)

theorem withoutReturn_isUtf8 {line : Bytes} (h : IsUtf8 line) :
    IsUtf8 (Source.withoutReturn line) := by
  unfold Source.withoutReturn
  split
  · next hlast =>
    have hline := List.dropLast_append_getLast? _ (Option.mem_def.mpr hlast)
    exact IsUtf8.left (b := [Byte.carriageReturn]) (by rwa [hline]) (avoids_cons rfl)
  · exact h

theorem bodyLines_isUtf8 {body : Bytes} (h : IsUtf8 body) :
    ∀ line ∈ bodyLines body, IsUtf8 line := by
  induction body using Bytes.byLines with
  | last line hline =>
    rw [bodyLines_of_line hline, List.forall_mem_singleton]
    exact withoutReturn_isUtf8 h
  | cons line rest hline ih =>
    obtain ⟨hbefore, hrest⟩ := h.split rfl
    rw [bodyLines_append hline, List.forall_mem_cons]
    exact ⟨withoutReturn_isUtf8 hbefore, ih hrest⟩

/-- Only blanks are taken away from a line. -/
theorem layLine_isUtf8 {width : Nat} {line : Bytes} (h : IsUtf8 line)
    (hwidth : isBlank line = false → width ≤ indent line) : IsUtf8 (layLine width line) := by
  unfold layLine
  split
  · exact isUtf8_nil
  · next hline =>
    have hblank : ∀ b ∈ line.take width, isAscii b = true := by
      intro b hb
      have hstart : line.take width <+: line.takeWhile Byte.isBlank :=
        List.prefix_of_prefix_length_le (List.take_prefix _ _) (List.takeWhile_prefix _)
          (Nat.le_trans (List.length_take_le _ _) (hwidth (Bool.eq_false_iff.mpr hline)))
      exact blank_ascii b (List.all_eq_true.mp List.all_takeWhile b (hstart.subset hb))
    exact (h.drop hblank).dropTrailing blank_ascii

theorem layOut_isUtf8 {body : Bytes} (h : IsUtf8 body) : IsUtf8 (layOut body) := by
  refine isUtf8_joinWith (isUtf8_of_ascii rfl) fun piece hpiece => ?_
  obtain ⟨line, hline, rfl⟩ := List.mem_map.mp hpiece
  exact layLine_isUtf8 (bodyLines_isUtf8 h line hline) fun hblank => margin_le hline hblank

end TextBlock

/-! ## Tokens -/

/-- What readings take from a token: the text it stands for, or a name as it is written. -/
def Token.Content.meant? (lexeme : Bytes) : Content → Option Bytes
  | docComment text | string text | textBlock text => some text
  | identifier => some lexeme
  | _ => none

namespace Scan

/-- What a scan finds in a text is valid as far as readings take it. -/
def MeansUtf8 (lexeme : Bytes) (found : Scan) : Prop :=
  ∀ said, found.content.meant? lexeme = some said → IsUtf8 said

variable {text lexeme : Bytes}

theorem meansUtf8_of_none {found : Scan} (h : found.content.meant? [] = none) :
    MeansUtf8 lexeme found := by
  obtain ⟨content, width⟩ := found
  intro said hsaid
  cases content with
  | docComment | string | textBlock | identifier => cases h
  | _ => cases hsaid

theorem comment_meansUtf8 (h : IsUtf8 text) : MeansUtf8 lexeme (comment text) := by
  have hend : ∀ b, (!Byte.isLineEnd b) = false → isAscii b = true := by
    exact Byte.forall_of_lt (by decide +kernel)
  have hline := h.takeWhile hend
  unfold comment
  dsimp only
  generalize text.takeWhile (!Byte.isLineEnd ·) = line at hline
  cases line with
  | nil => exact meansUtf8_of_none rfl
  | cons b line =>
    dsimp only
    split
    · exact meansUtf8_of_none rfl
    · next hslash =>
      obtain ⟨hb, -⟩ := not_or.mp hslash
      rw [not_not.mp hb] at hline
      have hbehind := hline.tail rfl
      split
      · next hspace =>
        obtain ⟨more, rfl⟩ := List.head?_eq_some_iff.mp hspace
        intro said hsaid
        cases hsaid
        exact hbehind.tail rfl
      · intro said hsaid
        cases hsaid
        exact hbehind

theorem decoded_meansUtf8 {content : Bytes → Token.Content} (h : IsUtf8 text)
    (hcontent : ∀ meant, (content meant).meant? lexeme = some meant) (width : Nat) :
    MeansUtf8 lexeme (decoded content text width) := by
  unfold decoded
  split
  · next meant hdecode =>
    intro said hsaid
    rw [hcontent] at hsaid
    cases hsaid
    exact Escape.decode_isUtf8 [] h hdecode
  · exact meansUtf8_of_none rfl

/-- A body is cut before a quote. -/
theorem take_body_isUtf8 {isClose : Bytes → Bool} (h : IsUtf8 text)
    (hclose : ∀ t, isClose t = true → t.head? = some Byte.quote)
    (hclosed : (body isClose text).isClosed) :
    IsUtf8 (text.take (body isClose text).width) := by
  have hquote := hclose _ (body_closes hclosed)
  refine IsUtf8.left (b := text.drop (body isClose text).width) (by rwa [List.take_append_drop]) ?_
  intro b hb
  rw [hquote] at hb
  cases hb
  rfl

theorem string_meansUtf8 (h : IsUtf8 text) : MeansUtf8 lexeme (string text) := by
  have hclose : ∀ t, closesString t = true → t.head? = some Byte.quote := by
    intro t ht
    cases t with
    | nil => cases ht
    | cons b t => rw [List.head?_cons, beq_iff_eq.mp ht]
  unfold string
  dsimp only
  split
  · next hclosed => exact decoded_meansUtf8 (take_body_isUtf8 h hclose hclosed) (fun _ => rfl) _
  · exact meansUtf8_of_none rfl

theorem textBlock_meansUtf8 (h : IsUtf8 text) : MeansUtf8 lexeme (textBlock text) := by
  have hclose : ∀ t, closesTextBlock t = true → t.head? = some Byte.quote := by
    intro t ht
    match t with
    | [] | [_] | [_, _] => cases ht
    | a :: b :: c :: t =>
      simp only [closesTextBlock, Bool.and_eq_true, beq_iff_eq] at ht
      rw [List.head?_cons, ht.1.1]
  have hopening : IsUtf8 (text.drop (lineBreakWidth text)) := by
    rcases lineBreakWidth_cases text with ⟨rest, rfl, hwidth⟩ | ⟨rest, rfl, hwidth⟩ | hwidth
    · rw [hwidth]
      exact h.tail rfl
    · rw [hwidth]
      exact (h.tail rfl).tail rfl
    · rwa [hwidth]
  unfold textBlock
  dsimp only
  split
  · exact meansUtf8_of_none rfl
  split
  · next hclosed =>
    exact decoded_meansUtf8 (TextBlock.layOut_isUtf8 (take_body_isUtf8 hopening hclose hclosed))
      (fun _ => rfl) _
  · exact meansUtf8_of_none rfl

theorem quoted_meansUtf8 (h : IsUtf8 text) : MeansUtf8 lexeme (quoted text) := by
  unfold quoted
  split
  · split
    · next hquotes =>
      obtain ⟨rfl, rfl⟩ := hquotes
      exact textBlock_meansUtf8 ((h.tail rfl).tail rfl)
    · exact string_meansUtf8 h
  · exact string_meansUtf8 h

theorem signContent_means : ∀ b, (signContent b).meant? [] = none := by
  exact Byte.forall_of_lt (by decide +kernel)

theorem name_ascii : ∀ b, Byte.isIdentifierContinue b = true → isAscii b = true := by
  exact Byte.forall_of_lt (by decide +kernel)

/-- Names are made of ASCII bytes, and literals and comments begin with one. -/
theorem next_meansUtf8 {before : Bytes} (h : IsUtf8 (before ++ text)) :
    MeansUtf8 (text.take (next text).width) (next text) := by
  cases text with
  | nil => exact meansUtf8_of_none rfl
  | cons first rest =>
    have hbehind (hfirst : isAscii first = true) : IsUtf8 rest := (h.split hfirst).2
    simp only [next]
    unfold token
    split
    · exact meansUtf8_of_none rfl
    split
    · exact meansUtf8_of_none rfl
    split
    · exact meansUtf8_of_none rfl
    split
    · exact meansUtf8_of_none rfl
    split
    · next hslash =>
      obtain ⟨rfl, hhead⟩ := hslash
      obtain ⟨more, rfl⟩ := List.head?_eq_some_iff.mp hhead
      exact comment_meansUtf8 ((hbehind rfl).tail rfl)
    split
    · next hstart =>
      intro said hsaid
      cases hsaid
      have hrest : rest.takeWhile Byte.isIdentifierContinue =
          rest.take (rest.takeWhile Byte.isIdentifierContinue).length :=
        List.prefix_iff_eq_take.mp (List.takeWhile_prefix _)
      have hfirst : Byte.isIdentifierContinue first = true := by
        simp [Byte.isIdentifierContinue, hstart]
      refine isUtf8_of_ascii (List.all_eq_true.mpr fun b hb => name_ascii b ?_)
      rw [Nat.add_comm, List.take_succ_cons, ← hrest] at hb
      rcases List.mem_cons.mp hb with rfl | hb
      · exact hfirst
      · exact List.all_eq_true.mp List.all_takeWhile b hb
    split
    · unfold numeral
      split
      · exact meansUtf8_of_none rfl
      · exact meansUtf8_of_none rfl
    split
    · next hquote =>
      subst hquote
      exact quoted_meansUtf8 (hbehind rfl)
    · unfold sign
      split
      · exact meansUtf8_of_none rfl
      · exact meansUtf8_of_none (signContent_means first)

end Scan

/-- What readings take from a token. -/
def Token.meant? (t : Token) : Option Bytes := t.content.meant? t.lexeme

theorem Source.meant_isUtf8 {s : Source} (h : IsUtf8 s.content) {t : Token} (ht : t ∈ s.tokens)
    {said : Bytes} (hsaid : t.meant? = some said) : IsUtf8 said := by
  obtain ⟨k, rfl, before, hbefore⟩ := Lexer.exists_of_mem_tokens ht
  have hcontent : before ++ k.ahead = s.content := hbefore
  rw [← hcontent] at h
  exact Scan.next_meansUtf8 h said hsaid

end ShapeTraits
