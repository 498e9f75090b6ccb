-- A line break behind a text without errors changes none of its tokens: no token
-- reaches past the end of the text, and none goes on with a line break.
import ShapeTraits.Proofs.JsonStrings
import ShapeTraits.Proofs.Numerals
import ShapeTraits.Proofs.Relocation
import ShapeTraits.Proofs.Tiling

namespace ShapeTraits

/-- Every byte but a line feed. -/
def Byte.isWithinLine (b : UInt8) : Bool := b != Byte.lineFeed

/-- Nothing but a line feed can come next, so nothing that a line feed is not. -/
theorem Bytes.Avoids.ofLines {more : Bytes} (h : Avoids Byte.isWithinLine more) {bad : UInt8 → Bool}
    (hbad : bad Byte.lineFeed = false) : Avoids bad more := by
  refine h.imp fun b hb => ?_
  have hfeed : b = Byte.lineFeed := by simpa [Byte.isWithinLine] using hb
  rw [hfeed, hbad]

namespace Scan

/-- What a scan finds in a text, if it is no error, ends with the text or before it,
and is found as well if more lines follow. `before` bytes of the token are before
the text. -/
def Settles (scan : Bytes → Scan) (before : Nat) (text : Bytes) : Prop :=
  (scan text).content.fault? = none → (scan text).width ≤ before + text.length ∧
    ∀ more, Bytes.Avoids Byte.isWithinLine more → scan (text ++ more) = scan text

section Seam

variable {isClose : Bytes → Bool} {text more : Bytes} {content : Bytes → Token.Content}

/-! ## Literals -/

/-- A body ends where it is closed. -/
theorem body_closes (h : (body isClose text).isClosed) :
    isClose (text.drop (body isClose text).width) = true := by
  fun_induction body isClose text with
  | case1 => cases h
  | case2 b rest hclose => exact hclose
  | case3 => cases h
  | case4 c rest _ ih =>
    rw [Body.after, Nat.add_comm]
    exact ih h
  | case5 b rest _ _ ih =>
    rw [Body.after, Nat.add_comm]
    exact ih h

theorem body_append (hclose : ∀ t, isClose (t ++ more) = isClose t)
    (h : (body isClose text).isClosed) : body isClose (text ++ more) = body isClose text := by
  fun_induction body isClose text with
  | case1 => cases h
  | case2 b rest hb =>
    have hb' : isClose (b :: (rest ++ more)) = true := (hclose (b :: rest)).trans hb
    rw [List.cons_append, body.eq_def]
    exact if_pos hb'
  | case3 => cases h
  | case4 c rest hb ih =>
    have hb' := (hclose (Byte.backslash :: c :: rest)).trans (Bool.eq_false_iff.mpr hb)
    exact (body_escape hb').trans (congrArg (Body.after 2) (ih h))
  | case5 b rest hb hslash ih =>
    have hb' := (hclose (b :: rest)).trans (Bool.eq_false_iff.mpr hb)
    exact (body_plain hb' hslash).trans (congrArg (Body.after 1) (ih h))

theorem no_quote {b : UInt8} (h : Bytes.Avoids Byte.isWithinLine (b :: more)) :
    (b == Byte.quote) = false := by
  have hquote : Bytes.Avoids (· == Byte.quote) (b :: more) := h.ofLines rfl
  exact hquote.head

theorem closesString_append (hmore : Bytes.Avoids Byte.isWithinLine more) (t : Bytes) :
    closesString (t ++ more) = closesString t := by
  cases t with
  | cons b t => rfl
  | nil =>
    cases more with
    | nil => rfl
    | cons b more => exact no_quote hmore

theorem closesTextBlock_append (hmore : Bytes.Avoids (· == Byte.quote) more) (t : Bytes) :
    closesTextBlock (t ++ more) = closesTextBlock t := by
  cases more with
  | nil => rw [List.append_nil]
  | cons b more =>
    have hb : (b == Byte.quote) = false := hmore.head
    match t with
    | [] => rcases more with _ | ⟨c, _ | ⟨d, more⟩⟩ <;> simp [closesTextBlock, hb]
    | [c] => rcases more with _ | ⟨d, more⟩ <;> simp [closesTextBlock, hb]
    | [c, d] => simp [closesTextBlock, hb]
    | c :: d :: e :: t => rfl

theorem closesString_length {t : Bytes} (h : closesString t = true) : 1 ≤ t.length := by
  cases t with
  | nil => cases h
  | cons b t => exact Nat.succ_pos _

theorem closesTextBlock_length {t : Bytes} (h : closesTextBlock t = true) : 3 ≤ t.length := by
  match t with
  | [] | [_] | [_, _] => cases h
  | b :: c :: d :: t => exact Nat.le_add_left 3 _

theorem string_settles (text : Bytes) : Settles string 1 text := by
  intro hfault
  by_cases hclosed : (body closesString text).isClosed
  · have hlength := closesString_length (body_closes hclosed)
    rw [List.length_drop] at hlength
    refine ⟨?_, fun more hmore => ?_⟩
    · simp only [string, if_pos hclosed, decoded_width]
      omega
    · have hle : (body closesString text).width ≤ text.length := by omega
      simp only [string, body_append (closesString_append hmore) hclosed,
        List.take_append_of_le_length hle]
  · simp only [string, if_neg hclosed] at hfault
    cases hfault

theorem lineBreakWidth_settles (h : lineBreakWidth text ≠ 0) :
    lineBreakWidth text ≤ text.length ∧
      ∀ more, lineBreakWidth (text ++ more) = lineBreakWidth text := by
  match text with
  | [] => exact absurd rfl h
  | [b] =>
    by_cases hb : b = Byte.lineFeed
    · simp [lineBreakWidth, hb]
    · simp [lineBreakWidth, hb] at h
  | b :: c :: text =>
    refine ⟨?_, fun _ => rfl⟩
    simp only [lineBreakWidth, List.length_cons]
    split
    · omega
    · split <;> omega

theorem textBlock_settles (text : Bytes) : Settles textBlock 3 text := by
  intro hfault
  by_cases hopening : lineBreakWidth text = 0
  · simp only [textBlock, if_pos hopening] at hfault
    cases hfault
  · obtain ⟨hle, hsame⟩ := lineBreakWidth_settles hopening
    by_cases hclosed : (body closesTextBlock (text.drop (lineBreakWidth text))).isClosed
    · have hlength := closesTextBlock_length (body_closes hclosed)
      rw [List.length_drop, List.length_drop] at hlength
      refine ⟨?_, fun more hmore => ?_⟩
      · simp only [textBlock, if_neg hopening, if_pos hclosed, decoded_width]
        omega
      · have hwidth : (body closesTextBlock (text.drop (lineBreakWidth text))).width ≤
            (text.drop (lineBreakWidth text)).length := by
          rw [List.length_drop]
          omega
        simp only [textBlock, hsame, List.drop_append_of_le_length hle,
          body_append (closesTextBlock_append (hmore.ofLines rfl)) hclosed,
          List.take_append_of_le_length hwidth]
    · simp only [textBlock, if_neg hopening, if_neg hclosed] at hfault
      cases hfault

/-- A quote with two more behind it is a text block also before more lines, and one
without is none there either. -/
theorem quoted_settles (text : Bytes) : Settles quoted 1 text := by
  have hstring (h : ∀ more, Bytes.Avoids Byte.isWithinLine more →
      quoted (text ++ more) = string (text ++ more)) : Settles quoted 1 text := by
    have hnil : quoted text = string text := by simpa using h [] Bytes.avoids_nil
    intro hfault
    rw [hnil] at hfault ⊢
    obtain ⟨hle, hsame⟩ := string_settles text hfault
    exact ⟨hle, fun more hmore => (h more hmore).trans (hsame more hmore)⟩
  match text with
  | [] =>
    intro hfault
    cases hfault
  | [a] =>
    refine hstring fun more hmore => ?_
    cases more with
    | nil => rfl
    | cons b more =>
      have hb := no_quote hmore
      exact if_neg fun h => beq_eq_false_iff_ne.mp hb h.2
  | a :: b :: rest =>
    by_cases hquotes : a = Byte.quote ∧ b = Byte.quote
    · intro hfault
      have hblock (more : Bytes) : quoted (a :: b :: (rest ++ more)) = textBlock (rest ++ more) :=
        if_pos hquotes
      have hnil : quoted (a :: b :: rest) = textBlock rest := if_pos hquotes
      rw [hnil] at hfault ⊢
      obtain ⟨hle, hsame⟩ := textBlock_settles rest hfault
      refine ⟨by simp only [List.length_cons]; omega, fun more hmore => ?_⟩
      exact (hblock more).trans (hsame more hmore)
    · exact hstring fun more _ => if_neg hquotes

/-! ## Comments, numbers and signs -/

theorem comment_settles (text : Bytes) : Settles comment 2 text := by
  refine fun _ => ⟨?_, fun more hmore => ?_⟩
  · simp only [comment]
    exact Nat.add_le_add_left (List.IsPrefix.length_le <| List.takeWhile_prefix _) 2
  · have hend : Bytes.Avoids (!Byte.isLineEnd ·) more := hmore.ofLines rfl
    simp only [comment, hend.takeWhile_append_eq]

theorem numeral_settles (text : Bytes) : Settles numeral 0 text := by
  intro hfault
  cases hread : Numeral.read text with
  | error e =>
    simp only [numeral, hread] at hfault
    cases hfault
  | ok n =>
    have hparts := Numeral.read_eq_ok.mp hread
    refine ⟨?_, fun more hmore => ?_⟩
    · simp only [numeral, hread, Nat.zero_add]
      exact hparts.text_starts.length_le
    · have hmore' : Bytes.Avoids Numeral.couldGoOn more := hmore.ofLines rfl
      simp only [numeral, Numeral.read_append_eq hmore', hread]

/-- A choice settles if more lines do not change it and what is chosen settles. -/
theorem settles_ite {p : Bytes → Prop} [DecidablePred p] {f g : Bytes → Scan} {before : Nat}
    (hp : ∀ more, Bytes.Avoids Byte.isWithinLine more → (p (text ++ more) ↔ p text))
    (hf : p text → Settles f before text) (hg : ¬p text → Settles g before text) :
    Settles (fun t => if p t then f t else g t) before text := by
  intro hfault
  by_cases h : p text
  · simp only [if_pos h] at hfault ⊢
    obtain ⟨hle, hsame⟩ := hf h hfault
    exact ⟨hle, fun more hmore => by rw [if_pos ((hp more hmore).mpr h), hsame more hmore]⟩
  · simp only [if_neg h] at hfault ⊢
    obtain ⟨hle, hsame⟩ := hg h hfault
    exact ⟨hle, fun more hmore => by rw [if_neg (mt (hp more hmore).mp h), hsame more hmore]⟩

theorem head_append (hmore : Bytes.Avoids Byte.isWithinLine more) {b : UInt8}
    (hb : Byte.isWithinLine b = true) (text : Bytes) :
    (text ++ more).head? = some b ↔ text.head? = some b := by
  cases text with
  | cons c text => rfl
  | nil => exact ⟨fun h => absurd hb (Bool.eq_false_iff.mp (hmore b h)), nofun⟩

/-- A sign of one byte. -/
theorem one_settles (content : Token.Content) (text : Bytes) :
    Settles (fun _ => ⟨content, 1⟩) 1 text :=
  fun _ => ⟨Nat.le_add_right 1 _, fun _ _ => rfl⟩

/-- A sign of two bytes. -/
theorem two_settles (content : Token.Content) {b : UInt8} (h : text.head? = some b) :
    Settles (fun _ => ⟨content, 2⟩) 1 text := by
  refine fun _ => ⟨?_, fun _ _ => rfl⟩
  cases text with
  | nil => cases h
  | cons c text => exact Nat.add_le_add_left (Nat.succ_pos _) 1

/-- All the bytes of a kind that is not the end of a line. -/
theorem run_settles (content : Token.Content) {p : UInt8 → Bool}
    (hp : p Byte.lineFeed = false) (text : Bytes) :
    Settles (fun t => ⟨content, 1 + (t.takeWhile p).length⟩) 1 text := by
  refine fun _ => ⟨?_, fun more hmore => ?_⟩
  · exact Nat.add_le_add_left (List.IsPrefix.length_le <| List.takeWhile_prefix _) 1
  · simp only [(hmore.ofLines hp).takeWhile_append_eq]

theorem sign_settles (first : UInt8) (text : Bytes) : Settles (sign first) 1 text :=
  settles_ite (fun _ hmore => and_congr_right fun _ => head_append hmore rfl text)
    (fun h => two_settles _ h.2) (fun _ => one_settles _ text)

/-! ## All tokens -/

/-- A comment behind its first slash. -/
theorem comment_settles_drop {b : UInt8} (h : text.head? = some b) :
    Settles (fun t => comment (t.drop 1)) 1 text := by
  cases text with
  | nil => cases h
  | cons c text =>
    intro hfault
    obtain ⟨hle, hsame⟩ := comment_settles text hfault
    exact ⟨by simpa [Nat.add_comm, Nat.add_left_comm] using hle, hsame⟩

/-- A carriage return needs the line feed behind it, so the text does not end
with one. -/
theorem token_settles (first : UInt8) (text : Bytes) : Settles (token first) 1 text := by
  by_cases hreturn : first = Byte.carriageReturn ∧ text = []
  · obtain ⟨rfl, rfl⟩ := hreturn
    intro hfault
    cases hfault
  have hbreak (more : Bytes) :
      first = Byte.carriageReturn ∧ (text ++ more).head? = some Byte.lineFeed ↔
        first = Byte.carriageReturn ∧ text.head? = some Byte.lineFeed := by
    refine and_congr_right fun hfirst => ?_
    obtain ⟨b, rest, rfl⟩ := List.exists_cons_of_ne_nil fun hnil => hreturn ⟨hfirst, hnil⟩
    exact Iff.rfl
  -- One choice after another, as the scan tries them: blanks, line breaks, commas,
  -- comments, names, numbers, quotes, and at last the other signs.
  refine settles_ite (fun _ _ => Iff.rfl) (fun _ => run_settles _ rfl text) fun _ => ?_
  refine settles_ite (fun _ _ => Iff.rfl) (fun _ => one_settles _ text) fun _ => ?_
  refine settles_ite (fun more _ => hbreak more) (fun h => two_settles _ h.2) fun _ => ?_
  refine settles_ite (fun _ _ => Iff.rfl) (fun _ => one_settles _ text) fun _ => ?_
  refine settles_ite (fun _ hmore => and_congr_right fun _ => head_append hmore rfl text)
    (fun h => comment_settles_drop h.2) fun _ => ?_
  refine settles_ite (fun _ _ => Iff.rfl) (fun _ => run_settles _ rfl text) fun _ => ?_
  refine settles_ite (fun _ _ => Iff.rfl) (fun _ hfault => ?_) fun _ => ?_
  · obtain ⟨hle, hsame⟩ := numeral_settles (first :: text) hfault
    exact ⟨by simpa [Nat.add_comm] using hle, hsame⟩
  · exact settles_ite (fun _ _ => Iff.rfl) (fun _ => quoted_settles text) fun _ =>
      sign_settles first text

theorem next_settles (text : Bytes) (h : text ≠ []) : Settles next 0 text := by
  cases text with
  | nil => exact absurd rfl h
  | cons first text =>
    intro hfault
    obtain ⟨hle, hsame⟩ := token_settles first text hfault
    exact ⟨by rw [Nat.zero_add, List.length_cons, Nat.add_comm]; exact hle, hsame⟩

end Seam

end Scan

/-! ## Whole texts -/

namespace Lexer

variable {l k : Lexer} {more : Bytes}

/-- A token without an error is the same where more lines follow, and what is behind
it is followed by them. -/
theorem token_elsewhere (hahead : l.ahead ≠ []) (hfault : (Scan.next l.ahead).content.fault? = none)
    (hk : k.ahead = l.ahead ++ more) (hmore : Bytes.Avoids Byte.isWithinLine more) :
    k.token.plain = l.token.plain ∧ k.rest.ahead = l.rest.ahead ++ more := by
  obtain ⟨hle, hsame⟩ := Scan.next_settles l.ahead hahead hfault
  rw [Nat.zero_add] at hle
  have hnext : Scan.next k.ahead = Scan.next l.ahead := by rw [hk, hsame more hmore]
  have hlexeme : k.lexeme = l.lexeme := by
    rw [lexeme, hnext, hk, List.take_append_of_le_length hle]
    rfl
  have hrest : k.rest.ahead = k.ahead.drop (Scan.next k.ahead).width := rfl
  refine ⟨Prod.ext (congrArg Scan.content hnext) hlexeme, ?_⟩
  rw [hrest, hnext, hk, List.drop_append_of_le_length hle]
  rfl

/-- The text ahead of a lexer that finds no error in it is spelled as the tokens
there, wherever it stands before more lines. -/
theorem spells_ahead (l : Lexer) (h : lexicalErrors l.tokens = []) :
    ∃ w eof, l.tokens = w ++ [eof] ∧ eof.kind = .eof ∧ (∀ t ∈ w, t.kind ≠ .eof) ∧
      Spells l.ahead Byte.isWithinLine (Alike w) := by
  induction l using Lexer.byTokens with
  | nil l hahead =>
    refine ⟨[], l.token, tokens_of_nil hahead, token_kind_eq_eof.mpr hahead,
      List.forall_mem_nil _, ?_⟩
    rw [hahead]
    exact .nil _ (.refl [])
  | cons l hahead ih =>
    rw [tokens_of_ne_nil hahead, lexicalErrors, List.filterMap_eq_nil_iff, List.forall_mem_cons]
      at h
    obtain ⟨herror, hrest⟩ := h
    obtain ⟨w, eof, htokens, heof, hw, hspells⟩ := ih (List.filterMap_eq_nil_iff.mpr hrest)
    have hfault : (Scan.next l.ahead).content.fault? = none := Option.map_eq_none_iff.mp herror
    refine ⟨l.token :: w, eof, by rw [tokens_of_ne_nil hahead, htokens]; rfl, heof,
      List.forall_mem_cons.mpr ⟨mt token_kind_eq_eof.mp hahead, hw⟩, ?_⟩
    -- Elsewhere the first token is the same, and the hypothesis covers what is behind it.
    intro k more hk hmore
    obtain ⟨hplain, hkrest⟩ := token_elsewhere hahead hfault hk hmore
    obtain ⟨x, j, hx, hj, hxerror, halike⟩ := hspells k.rest more hkrest hmore
    have hkahead : k.ahead ≠ [] := by
      rw [hk]
      exact List.append_ne_nil_of_left_ne_nil hahead more
    refine ⟨k.token :: x, j, by rw [tokens_of_ne_nil hkahead, hx]; rfl, hj, ?_, ?_⟩
    · refine List.forall_mem_cons.mpr ⟨Option.map_eq_none_iff.mpr ?_, hxerror⟩
      rw [Token.content_of_plain hplain]
      exact hfault
    · rw [Alike, List.map_cons, List.map_cons, hplain, halike]

end Lexer

end ShapeTraits
