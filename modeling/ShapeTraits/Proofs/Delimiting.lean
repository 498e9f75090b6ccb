-- Where tokens stand. The location of a token covers just the text of the token, and
-- the next one starts where it ends, unless the document ends with a backslash that
-- hides nothing: the literal around it is one byte longer than the document.
import Mathlib.Data.List.Chain
import ShapeTraits.Proofs.Lines
import ShapeTraits.Proofs.Seam

namespace ShapeTraits

/-! ## Backslashes at the end -/

/-- How many bytes the backslashes at the end of a text count for that are not there:
one for a backslash that hides nothing, because those before it hide one another. -/
def Bytes.overhang (text : Bytes) : Nat := (text.reverse.takeWhile (· == Byte.backslash)).length % 2

namespace Bytes

variable {b : UInt8} {text : Bytes}

theorem overhang_cons_of_ne (h : b ≠ Byte.backslash) : overhang (b :: text) = overhang text := by
  have hb : (b == Byte.backslash) = false := beq_eq_false_iff_ne.mpr h
  unfold overhang
  rw [List.reverse_cons, List.takeWhile_append]
  split
  · next hall => simp [hb, hall]
  · rfl

/-- A backslash and what it hides do not count: both are backslashes, or no run of them
reaches over what is hidden. -/
theorem overhang_escape (c : UInt8) (text : Bytes) :
    overhang (Byte.backslash :: c :: text) = overhang text := by
  unfold overhang
  rw [List.reverse_cons, List.reverse_cons, List.append_assoc, List.takeWhile_append]
  split
  · next hall => by_cases hc : c = Byte.backslash <;> simp [hc, hall]
  · rfl

end Bytes

/-! ## Widths -/

/-- The faults of literals without an end. -/
def Token.Content.isOpen : Token.Content → Bool
  | .error .openString | .error .openTextBlock => true
  | _ => false

namespace Scan

/-- An open literal takes the whole text and its overhang, and all else ends with the
text or before it. `before` bytes of the token are before the text. -/
def Ends (before : Nat) (text : Bytes) (found : Scan) : Prop :=
  if found.content.isOpen then found.width = before + (text.length + text.overhang)
  else found.width ≤ before + text.length

section Ends

variable {text : Bytes} {before : Nat}

theorem Ends.of_closed {found : Scan} (hopen : found.content.isOpen = false)
    (h : found.width ≤ before + text.length) : Ends before text found := by
  unfold Ends
  rwa [hopen, if_neg Bool.false_ne_true]

theorem body_of_open {isClose : Bytes → Bool} (h : ¬(body isClose text).isClosed) :
    (body isClose text).width = text.length + text.overhang := by
  fun_induction body isClose text with
  | case1 => rfl
  | case2 => exact absurd rfl h
  | case3 => rfl
  | case4 c rest _ ih =>
    have hrest := ih h
    rw [Bytes.overhang_escape]
    simp only [Body.after, List.length_cons, hrest]
    omega
  | case5 b rest _ hb ih =>
    have hrest := ih h
    rw [Bytes.overhang_cons_of_ne hb]
    simp only [Body.after, List.length_cons, hrest]
    omega

theorem decoded_isOpen {content : Bytes → Token.Content}
    (h : ∀ meant, (content meant).isOpen = false)
    (width : Nat) : (decoded content text width).content.isOpen = false := by
  unfold decoded
  split
  · exact h _
  · rfl

theorem string_ends (text : Bytes) : Ends 1 text (string text) := by
  unfold string
  dsimp only
  split
  · next hclosed =>
    have hlength := closesString_length (body_closes hclosed)
    rw [List.length_drop] at hlength
    refine .of_closed (decoded_isOpen (fun _ => rfl) _) ?_
    rw [decoded_width]
    omega
  · next hopen =>
    have hwidth := body_of_open hopen
    simp only [Ends, Token.Content.isOpen, if_true]
    omega

/-- No line break is a backslash. -/
theorem overhang_drop_lineBreak (text : Bytes) :
    Bytes.overhang (text.drop (lineBreakWidth text)) = text.overhang := by
  rcases lineBreakWidth_cases text with ⟨rest, rfl, hwidth⟩ | ⟨rest, rfl, hwidth⟩ | hwidth
  · rw [hwidth]
    exact (Bytes.overhang_cons_of_ne (by decide)).symm
  · rw [hwidth, Bytes.overhang_cons_of_ne (by decide), Bytes.overhang_cons_of_ne (by decide)]
    rfl
  · rw [hwidth, List.drop_zero]

theorem textBlock_ends (text : Bytes) : Ends 3 text (textBlock text) := by
  unfold textBlock
  dsimp only
  split
  · exact .of_closed rfl (Nat.le_add_right 3 _)
  · next hopening =>
    obtain ⟨hle, -⟩ := lineBreakWidth_settles hopening
    split
    · next hclosed =>
      have hlength := closesTextBlock_length (body_closes hclosed)
      rw [List.length_drop, List.length_drop] at hlength
      refine .of_closed (decoded_isOpen (fun _ => rfl) _) ?_
      rw [decoded_width]
      omega
    · next hopen =>
      have hwidth := body_of_open hopen
      rw [overhang_drop_lineBreak, List.length_drop] at hwidth
      simp only [Ends, Token.Content.isOpen, if_true]
      omega

theorem Ends.cons {b : UInt8} {found : Scan} (hb : b ≠ Byte.backslash)
    (h : Ends (before + 1) text found) :
    Ends before (b :: text) found := by
  unfold Ends at h ⊢
  rw [Bytes.overhang_cons_of_ne hb, List.length_cons]
  split
  · next hopen =>
    rw [if_pos hopen] at h
    omega
  · next hopen =>
    rw [if_neg hopen] at h
    omega

theorem quoted_ends (text : Bytes) : Ends 1 text (quoted text) := by
  unfold quoted
  split
  · split
    · next h =>
      obtain ⟨rfl, rfl⟩ := h
      exact ((textBlock_ends _).cons (by decide)).cons (by decide)
    · exact string_ends _
  · exact string_ends _

end Ends

end Scan

namespace Numeral

variable {text : Bytes}

/-- What a part takes of the rest of a text ends with the text or before it. -/
theorem add_le_of_drop {k width : Nat} (h : width ≤ (text.drop k).length) (hpos : 0 < width) :
    k + width ≤ text.length := by
  rw [List.length_drop] at h
  omega

theorem wholeEnd_le (text : Bytes) : wholeEnd text ≤ text.length := by
  have hbegins : Begins text ⟨text.head? == some Byte.minus,
    leadingDigits (text.drop (text.head? == some Byte.minus).toNat), none, none⟩ := ⟨rfl, rfl⟩
  exact hbegins.whole_le

theorem fraction_error_le {width : Nat} (h : fraction? text = .error width) :
    width ≤ text.length ∧ 0 < width := by
  cases text with
  | nil => cases h
  | cons b rest =>
    simp only [fraction?] at h
    (repeat' split at h) <;> cases h
    exact ⟨Nat.succ_pos _, Nat.one_pos⟩

theorem exponent_error_le {width : Nat} (h : exponent? text = .error width) :
    width ≤ text.length ∧ 0 < width := by
  cases text with
  | nil => cases h
  | cons b rest =>
    have hsign := (sign_starts rest).length_le
    simp only [exponent?] at h
    (repeat' split at h) <;> cases h
    rw [List.length_cons]
    omega

theorem read_error_le {fault : Fault} {width : Nat} (h : read text = .error (fault, width)) :
    width ≤ text.length := by
  have hwhole : wholeEnd text ≤ text.length := wholeEnd_le text
  simp only [read] at h
  (repeat' split at h) <;> cases h
  · exact hwhole
  · exact hwhole
  · next hfraction =>
    obtain ⟨hle, hpos⟩ := fraction_error_le hfraction
    exact add_le_of_drop hle hpos
  · next hexponent =>
    obtain ⟨hle, hpos⟩ := exponent_error_le hexponent
    exact add_le_of_drop hle hpos
  · next hstray =>
    refine add_le_of_drop (List.takeWhile_prefix _).length_le
      (List.length_pos_iff.mpr fun hnil => ?_)
    rw [hnil] at hstray
    cases hstray

end Numeral

namespace Scan

theorem numeral_isOpen (text : Bytes) : (numeral text).content.isOpen = false := by
  unfold numeral
  split
  · rfl
  · next fault width hread =>
    simp only [Numeral.read] at hread
    (repeat' split at hread) <;> cases hread
    all_goals rfl

theorem numeral_width_le (text : Bytes) : (numeral text).width ≤ text.length := by
  unfold numeral
  split
  · next n hread => exact (Numeral.read_eq_ok.mp hread).text_starts.length_le
  · next fault width hread => exact Numeral.read_error_le hread

theorem numeral_ends (text : Bytes) : Ends 0 text (numeral text) := by
  refine .of_closed (numeral_isOpen text) ?_
  rw [Nat.zero_add]
  exact numeral_width_le text

theorem signContent_isOpen : ∀ b, (signContent b).isOpen = false := by
  exact Byte.forall_of_lt (by decide +kernel)

theorem sign_ends (first : UInt8) (rest : Bytes) : Ends 0 (first :: rest) (sign first rest) := by
  unfold sign
  split
  · next h =>
    obtain ⟨-, hhead⟩ := h
    obtain ⟨more, rfl⟩ := List.head?_eq_some_iff.mp hhead
    exact .of_closed rfl (by simp)
  · exact .of_closed (signContent_isOpen first) (by simp)

theorem comment_fault (text : Bytes) : (comment text).content.fault? = none := by
  simp only [comment]
  repeat' split
  all_goals rfl

/-- What is no fault settles, and so ends in time. -/
theorem Settles.ends {scan : Bytes → Scan} {before : Nat} {text : Bytes}
    (h : Settles scan before text)
    (hfault : (scan text).content.fault? = none) : Ends before text (scan text) := by
  refine .of_closed ?_ (h hfault).1
  generalize (scan text).content = content at hfault
  cases content with
  | error fault => cases hfault
  | _ => rfl

/-- Only numerals, literals and single signs have faults. -/
theorem token_faults (first : UInt8) (rest : Bytes) : (token first rest).content.fault? = none ∨
    token first rest = numeral (first :: rest) ∨
    (first = Byte.quote ∧ token first rest = quoted rest) ∨ token first rest = sign first rest := by
  unfold token
  repeat' split
  · exact .inl rfl
  · exact .inl rfl
  · exact .inl rfl
  · exact .inl rfl
  · exact .inl (comment_fault _)
  · exact .inl rfl
  · exact .inr (.inl rfl)
  · exact .inr (.inr (.inl ⟨‹_›, rfl⟩))
  · exact .inr (.inr (.inr rfl))

theorem next_ends {text : Bytes} (h : text ≠ []) : Ends 0 text (next text) := by
  obtain ⟨first, rest, rfl⟩ := List.exists_cons_of_ne_nil h
  have hnext : next (first :: rest) = token first rest := rfl
  rcases token_faults first rest with hfault | hnumeral | ⟨rfl, hquoted⟩ | hsign
  · exact (next_settles (first :: rest) h).ends hfault
  · rw [hnext, hnumeral]
    exact numeral_ends (first :: rest)
  · rw [hnext, hquoted]
    exact (quoted_ends rest).cons (by decide)
  · rw [hnext, hsign]
    exact sign_ends first rest

end Scan

/-! ## Locations -/

namespace Place

theorem past_offset (p : Place) (text : Bytes) : (p.past text).offset = p.offset + text.length := by
  induction text generalizing p with
  | nil => rfl
  | cons b text ih =>
    have hstep : (p.step b).offset = p.offset + 1 := by
      unfold step
      split <;> rfl
    have hpast : p.past (b :: text) = (p.step b).past text := rfl
    rw [hpast, ih, hstep, List.length_cons]
    omega

end Place

namespace Token

/-- The offset that a token starts at. -/
def offset (t : Token) : Nat := t.start.offset.toNat

/-- The offset behind a token. -/
def stop (t : Token) : Nat := t.offset + t.start.length.toNat

/-- The location of a token lies in the document and covers the text of the token. -/
def IsLocatedIn (t : Token) (s : Source) : Prop :=
  t.stop ≤ s.content.length ∧ s.slice t.offset t.stop = t.lexeme

/-- A literal without an end whose text ends with a backslash that hides nothing: one
behind an even number of others. -/
def IsCutOff (t : Token) : Prop := t.content.isOpen ∧ t.lexeme.overhang = 1

instance (t : Token) (s : Source) : Decidable (t.IsLocatedIn s) :=
  inferInstanceAs (Decidable (_ ∧ _))

instance (t : Token) : Decidable t.IsCutOff := inferInstanceAs (Decidable (_ ∧ _))

end Token

namespace Lexer

variable {l : Lexer} {s : Source} {before : Bytes}

/-- A lexer that has passed the start of a document. -/
structure Stands (s : Source) (before : Bytes) (l : Lexer) : Prop where
  content : s.content = before ++ l.ahead
  offset : l.place.offset = before.length

theorem rest_offset (l : Lexer) :
    l.rest.place.offset = l.place.offset + (Scan.next l.ahead).width := by
  have hlength : l.lexeme.length ≤ (Scan.next l.ahead).width := by
    rw [lexeme, List.length_take]
    exact Nat.min_le_left _ _
  have hrest : l.rest.place.offset =
      (l.place.past l.lexeme).offset + ((Scan.next l.ahead).width - l.lexeme.length) := rfl
  rw [hrest, Place.past_offset]
  omega

/-- A token that is cut off takes a byte that is not there, and no other token does. -/
theorem width_eq_or (l : Lexer) :
    l.token.IsCutOff ∧ (Scan.next l.ahead).width = l.ahead.length + 1 ∨
      ¬l.token.IsCutOff ∧ (Scan.next l.ahead).width ≤ l.ahead.length := by
  by_cases hahead : l.ahead = []
  · refine .inr ⟨fun hcut => ?_, by rw [hahead]; exact Nat.le_refl 0⟩
    have hcontent : l.token.content = .eof := Scan.next_eq_eof.mpr hahead
    have hopen := hcut.1
    rw [hcontent] at hopen
    cases hopen
  have hends := Scan.next_ends hahead
  have hcontent : l.token.content = (Scan.next l.ahead).content := rfl
  unfold Scan.Ends at hends
  split at hends
  · next hopen =>
    have hlexeme : l.token.lexeme = l.ahead := List.take_of_length_le (by omega)
    have hodd : l.ahead.overhang < 2 := Nat.mod_lt _ (by decide)
    unfold Token.IsCutOff
    rw [hcontent, hlexeme]
    by_cases hhang : l.ahead.overhang = 1
    · exact .inl ⟨⟨hopen, hhang⟩, by omega⟩
    · exact .inr ⟨fun hcut => hhang hcut.2, by omega⟩
  · next hopen => exact .inr ⟨fun hcut => hopen hcut.1, by omega⟩

theorem Stands.rest (h : Stands s before l) (hcut : ¬l.token.IsCutOff) :
    Stands s (before ++ l.lexeme) l.rest := by
  have hwidth := (l.width_eq_or.resolve_left fun hcut' => hcut hcut'.1).2
  have hlength : l.lexeme.length = (Scan.next l.ahead).width := by
    rw [lexeme, List.length_take, Nat.min_eq_left hwidth]
  constructor
  · rw [List.append_assoc, lexeme_append_rest, h.content]
  · rw [rest_offset, h.offset, List.length_append, hlength]

section Located

variable (hsize : s.content.length < 2 ^ 32 - 2)

include hsize

theorem Stands.token_bounds (h : Stands s before l) :
    l.token.offset = before.length ∧ l.token.stop = before.length + (Scan.next l.ahead).width := by
  have hlength : s.content.length = before.length + l.ahead.length := by
    rw [h.content, List.length_append]
  have hwidth : (Scan.next l.ahead).width ≤ l.ahead.length + 1 := by
    rcases l.width_eq_or with ⟨-, hwidth⟩ | ⟨-, hwidth⟩ <;> omega
  have hoffset : l.token.offset = before.length := by
    have hplace : l.token.offset = l.place.offset % 2 ^ 32 := UInt32.toNat_ofNat'
    rw [hplace, h.offset, Nat.mod_eq_of_lt (by omega)]
  have hstart : l.token.start.length.toNat = (Scan.next l.ahead).width % 2 ^ 32 :=
    UInt32.toNat_ofNat'
  refine ⟨hoffset, ?_⟩
  rw [Token.stop, hoffset, hstart, Nat.mod_eq_of_lt (by omega)]

theorem Stands.isLocatedIn_iff (h : Stands s before l) :
    l.token.IsLocatedIn s ↔ ¬l.token.IsCutOff := by
  obtain ⟨hoffset, hstop⟩ := h.token_bounds hsize
  have hlength : s.content.length = before.length + l.ahead.length := by
    rw [h.content, List.length_append]
  unfold Token.IsLocatedIn
  rw [hoffset, hstop]
  rcases l.width_eq_or with ⟨hcut, hwidth⟩ | ⟨hcut, hwidth⟩
  · exact iff_of_false (fun hin => by omega) (not_not_intro hcut)
  · refine iff_of_true ⟨by omega, ?_⟩ hcut
    rw [Source.slice, h.content, List.take_append, List.drop_append]
    simp [lexeme, token]

/-- The token behind one that is located starts where that one ends. -/
theorem Stands.rest_offset_eq (h : Stands s before l) (hcut : ¬l.token.IsCutOff) :
    l.rest.token.offset = l.token.stop := by
  have hwidth := (l.width_eq_or.resolve_left fun hcut' => hcut hcut'.1).2
  obtain ⟨-, hstop⟩ := h.token_bounds hsize
  obtain ⟨hoffset, -⟩ := (h.rest hcut).token_bounds hsize
  rw [hoffset, hstop, List.length_append, lexeme, List.length_take, Nat.min_eq_left hwidth]

/-- From anywhere in a document on, the tokens are located side by side exactly if none
of them is cut off. -/
theorem Stands.tokens_located_iff (h : Stands s before l) :
    ((∀ t ∈ l.tokens, t.IsLocatedIn s) ∧ l.tokens.IsChain fun t u => u.offset = t.stop) ↔
      ∀ t ∈ l.tokens, ¬t.IsCutOff := by
  induction l using byTokens generalizing before with
  | nil l hnil =>
    rw [tokens_of_nil hnil, List.forall_mem_singleton, List.forall_mem_singleton,
      h.isLocatedIn_iff hsize]
    exact and_iff_left (List.isChain_singleton _)
  | cons l hne ih =>
    rw [tokens_of_ne_nil hne, List.forall_mem_cons, List.forall_mem_cons, h.isLocatedIn_iff hsize]
    by_cases hcut : l.token.IsCutOff
    · exact iff_of_false (fun hall => hall.1.1 hcut) fun hall => hall.1 hcut
    have hnext : ∀ u ∈ l.rest.tokens.head?, u.offset = l.token.stop := by
      have hhead : l.rest.tokens.head? = some l.rest.token := by
        rw [tokens]
        split <;> rfl
      intro u hu
      rw [hhead, Option.mem_some] at hu
      exact hu ▸ h.rest_offset_eq hsize hcut
    rw [List.isChain_cons, and_iff_right hnext, and_assoc, ih (h.rest hcut)]

end Located

end Lexer

/-! ## The laws -/

/-- The locations of all tokens cover just their texts, each token starting where the
one before it ends, exactly if no literal is cut off. -/
theorem locations_delimit_the_tokens_of_what_is_not_cut_off {s : Source}
    (hsize : s.content.length < 2 ^ 32 - 2) :
    ((∀ t ∈ s.tokens, t.IsLocatedIn s) ∧ s.tokens.IsChain fun t u => u.offset = t.stop) ↔
      ∀ t ∈ s.tokens, ¬t.IsCutOff := by
  have hstart : Lexer.Stands s [] (.ofSource s) := ⟨rfl, rfl⟩
  exact hstart.tokens_located_iff hsize

/-- A string without an end is not cut off where one backslash hides another. -/
theorem an_open_string_is_located_behind_a_hidden_backslash :
    let s : Source := ⟨[], utf8 "@t \"\\\\"⟩
    s.content.length < 2 ^ 32 - 2 ∧
      (∀ t ∈ s.tokens, t.IsLocatedIn s) ∧ s.tokens.IsChain fun t u => u.offset = t.stop := by
  intro s
  have hsize : s.content.length < 2 ^ 32 - 2 := by decide
  have hwhole : ∀ t ∈ s.tokens, ¬t.IsCutOff := by decide +kernel
  exact ⟨hsize, (locations_delimit_the_tokens_of_what_is_not_cut_off hsize).mpr hwhole⟩

/-- Of two bytes, the string without an end takes three, and the end stands behind
them. -/
theorem a_backslash_at_the_end_counts_for_two :
    let s : Source := ⟨[], utf8 "\"\\"⟩
    s.content.length = 2 ∧
      s.tokens.map (fun t => (t.lexeme, t.offset, t.stop)) = [(s.content, 0, 3), ([], 3, 3)] ∧
      ∃ t ∈ s.tokens, t.IsCutOff ∧ ¬t.IsLocatedIn s := by
  decide +kernel

end ShapeTraits
