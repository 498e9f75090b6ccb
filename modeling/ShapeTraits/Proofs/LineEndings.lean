-- Line ends do not matter. With a carriage return before every line feed a document has
-- the same tokens, which stand for the same and start at the same lines and columns, if no
-- string goes over a line end but by hiding it.
import ShapeTraits.Proofs.CarriageReturns
import ShapeTraits.Proofs.Delimiting

namespace ShapeTraits

open Bytes
open Byte (lineFeed carriageReturn backslash)

/-! ## Tokens -/

namespace Scan

/-- What is found in a text, and what is found in the text with carriage returns: the
same, and as wide as its bytes become. `before` bytes of the token are before the text. -/
def Matches (before : Nat) (text : Bytes) (found found' : Scan) : Prop :=
  ∃ content count, found = ⟨content, before + count⟩ ∧
    found' = ⟨content, before + stretch text count⟩

section Matches

variable {text : Bytes} {before : Nat}

theorem matches_of {found found' : Scan} (count : Nat) (hcontent : found'.content = found.content)
    (hwidth : found.width = before + count) (hwidth' : found'.width = before + stretch text count) :
    Matches before text found found' :=
  ⟨found.content, count, by rw [← hwidth], by rw [← hcontent, ← hwidth']⟩

theorem Matches.cons {b : UInt8} {found found' : Scan} (hb : b ≠ lineFeed)
    (h : Matches (before + 1) text found found') : Matches before (b :: text) found found' := by
  obtain ⟨content, count, rfl, rfl⟩ := h
  refine ⟨content, count + 1, ?_, ?_⟩
  · rw [Nat.add_assoc, Nat.add_comm 1]
  · rw [stretch_cons hb, Nat.add_assoc]

theorem matches_ite {p p' : Prop} [Decidable p] [Decidable p'] {f f' g g' : Scan} (hp : p' ↔ p)
    (hyes : p → Matches before text f f') (hno : ¬p → Matches before text g g') :
    Matches before text (if p then f else g) (if p' then f' else g') := by
  by_cases h : p
  · rw [if_pos h, if_pos (hp.mpr h)]
    exact hyes h
  · rw [if_neg h, if_neg (mt hp.mp h)]
    exact hno h

theorem matches_one (content : Token.Content) (text : Bytes) :
    Matches before text ⟨content, before⟩ ⟨content, before⟩ :=
  ⟨content, 0, rfl, by rw [stretch_zero]; rfl⟩

/-- A sign behind which another one must stand. -/
theorem matches_two (content : Token.Content) {b : UInt8} (hb : b ≠ lineFeed)
    (h : text.head? = some b) :
    Matches before text ⟨content, before + 1⟩ ⟨content, before + 1⟩ := by
  obtain ⟨rest, rfl⟩ := List.head?_eq_some_iff.mp h
  exact ⟨content, 1, rfl, by rw [stretch_cons hb, stretch_zero]⟩

theorem matches_run (content : Token.Content) {p : UInt8 → Bool} (hfeed : p lineFeed = false)
    (hreturn : p carriageReturn = false) (text : Bytes) :
    Matches before text ⟨content, before + (text.takeWhile p).length⟩
      ⟨content, before + ((crlf text).takeWhile p).length⟩ :=
  ⟨content, _, rfl, by rw [takeWhile_crlf hfeed hreturn, stretch_takeWhile hfeed]⟩

theorem comment_matches (text : Bytes) : Matches 2 text (comment text) (comment (crlf text)) := by
  unfold comment
  dsimp only
  rw [takeWhile_crlf rfl rfl]
  exact ⟨_, _, rfl, by rw [stretch_takeWhile rfl]⟩

theorem sign_matches (first : UInt8) (text : Bytes) :
    Matches 1 text (sign first text) (sign first (crlf text)) :=
  matches_ite (and_congr_right fun _ => head_crlf (by decide) (by decide) text)
    (fun h => matches_two _ (by decide) h.2) fun _ => matches_one _ text

theorem numeral_append_eq {more : Bytes} (hmore : Avoids Numeral.couldGoOn more) (text : Bytes) :
    numeral (text ++ more) = numeral text := by
  unfold numeral
  rw [Numeral.read_append_eq hmore]

/-- A numeral stands within one line. -/
theorem numeral_matches (text : Bytes) : Matches 0 text (numeral text) (numeral (crlf text)) := by
  obtain ⟨line, rest, rfl, hline, hrest, hrest'⟩ :
      ∃ line rest, text = line ++ rest ∧ lineFeed ∉ line ∧
      Avoids Numeral.couldGoOn rest ∧ Avoids Numeral.couldGoOn (crlf rest) := by
    induction text using Bytes.byLines with
    | last line hline =>
      exact ⟨line, [], (List.append_nil line).symm, hline, avoids_nil, avoids_nil⟩
    | cons line rest hline _ => exact ⟨line, _, rfl, hline, avoids_cons rfl, avoids_cons rfl⟩
  have hwithin : lineFeed ∉ (line ++ rest).take (numeral line).width := by
    rw [List.take_append_of_le_length (numeral_width_le line)]
    exact fun hmem => hline (List.mem_of_mem_take hmem)
  rw [crlf_append, crlf_of_not_mem hline, numeral_append_eq hrest, numeral_append_eq hrest']
  refine matches_of (numeral line).width rfl (Nat.zero_add _).symm ?_
  rw [Nat.zero_add, stretch_of_not_mem hwithin]

/-! ## Literals -/

/-- Where a literal is closed does not depend on its line ends. -/
theorem body_crlf {isClose : Bytes → Bool} (hclose : ∀ t, isClose (crlf t) = isClose t)
    (hends : ∀ b t, Byte.isLineEnd b → isClose (b :: t) = false) (text : Bytes) :
    body isClose (crlf text) =
      ⟨stretch text (body isClose text).width, (body isClose text).isClosed⟩ := by
  fun_induction body isClose text with
  | case1 => rfl
  | case2 b rest hb =>
    have hfeed : b ≠ lineFeed := by
      rintro rfl
      rw [hends lineFeed rest rfl] at hb
      cases hb
    have hb' := (hclose (b :: rest)).trans hb
    rw [crlf_cons hfeed] at hb' ⊢
    rw [body.eq_def, stretch_zero]
    exact if_pos hb'
  | case3 hb =>
    have hb' := (hclose [backslash]).trans (Bool.eq_false_iff.mpr hb)
    have hcrlf : crlf [backslash] = [backslash] := rfl
    have htwo : stretch [backslash] 2 = 2 := rfl
    rw [hcrlf] at hb' ⊢
    rw [body.eq_def]
    simp [hb', htwo]
  | case4 c rest hb ih =>
    have hb' := (hclose (backslash :: c :: rest)).trans (Bool.eq_false_iff.mpr hb)
    have hstretch : stretch (backslash :: c :: rest) ((body isClose rest).after 2).width =
        1 + stretch (c :: rest) ((body isClose rest).width + 1) := by
      rw [Body.after, Nat.add_comm]
      exact stretch_cons (by decide) _ _
    rw [hstretch]
    by_cases hc : c = lineFeed
    · -- The backslash hides the carriage return, and the line feed is plain.
      subst hc
      rw [crlf_cons (by decide), crlf_lineFeed] at hb' ⊢
      rw [body_escape hb', body_plain (hends _ _ rfl) (by decide), ih, stretch_lineFeed]
      simp only [Body.after, Body.mk.injEq, and_true]
      omega
    · rw [crlf_cons (by decide), crlf_cons hc] at hb' ⊢
      rw [body_escape hb', ih, stretch_cons hc]
      simp only [Body.after, Body.mk.injEq, and_true]
      omega
  | case5 b rest hb hslash ih =>
    have hb' := (hclose (b :: rest)).trans (Bool.eq_false_iff.mpr hb)
    rw [Body.after, Nat.add_comm 1]
    by_cases hfeed : b = lineFeed
    · subst hfeed
      rw [crlf_lineFeed] at hb' ⊢
      rw [body_plain hb' (by decide), body_plain (hends _ _ rfl) (by decide), ih, stretch_lineFeed]
      simp only [Body.after, Body.mk.injEq, and_true]
      omega
    · rw [crlf_cons hfeed] at hb' ⊢
      rw [body_plain hb' hslash, ih, stretch_cons hfeed]
      rfl

/-- A string is closed by a quote, also by the first of several. -/
theorem closesString_eq (text : Bytes) :
    closesString text = decide (1 ≤ (text.takeWhile (· == Byte.quote)).length) := by
  cases text with
  | nil => rfl
  | cons b text => cases hb : b == Byte.quote <;> simp [closesString, hb]

theorem closesString_crlf (text : Bytes) : closesString (crlf text) = closesString text := by
  rw [closesString_eq, closesString_eq, takeWhile_crlf rfl rfl]

/-- A text block is closed where three quotes or more stand in a row. -/
theorem closesTextBlock_eq (text : Bytes) :
    closesTextBlock text = decide (3 ≤ (text.takeWhile (· == Byte.quote)).length) := by
  match text with
  | [] => rfl
  | [a] => cases ha : a == Byte.quote <;> simp [closesTextBlock, ha]
  | [a, b] =>
    cases ha : a == Byte.quote <;> cases hb : b == Byte.quote <;> simp [closesTextBlock, ha, hb]
  | a :: b :: c :: text =>
    cases ha : a == Byte.quote <;> cases hb : b == Byte.quote <;> cases hc : c == Byte.quote <;>
      simp [closesTextBlock, ha, hb, hc]

theorem closesTextBlock_crlf (text : Bytes) :
    closesTextBlock (crlf text) = closesTextBlock text := by
  rw [closesTextBlock_eq, closesTextBlock_eq, takeWhile_crlf rfl rfl]

/-- No literal is closed at the end of a line. -/
theorem lineEnd_no_quote : ∀ b, Byte.isLineEnd b = true → (b == Byte.quote) = false := by
  exact Byte.forall_of_lt (by decide +kernel)

theorem body_string_crlf (text : Bytes) : body closesString (crlf text) =
    ⟨stretch text (body closesString text).width, (body closesString text).isClosed⟩ :=
  body_crlf closesString_crlf (fun b _ hb => lineEnd_no_quote b hb) text

theorem body_textBlock_crlf (text : Bytes) : body closesTextBlock (crlf text) =
    ⟨stretch text (body closesTextBlock text).width, (body closesTextBlock text).isClosed⟩ := by
  refine body_crlf closesTextBlock_crlf (fun b t hb => ?_) text
  rw [closesTextBlock_eq, List.takeWhile_cons_of_neg (by simpa using lineEnd_no_quote b hb)]
  rfl

/-- Quotes become no longer. -/
theorem stretch_quotes {count : Nat} (h : count ≤ (text.takeWhile (· == Byte.quote)).length) :
    stretch text count = count := by
  refine stretch_of_not_mem fun hmem => ?_
  have hquotes : text.take count <+: text.takeWhile (· == Byte.quote) :=
    List.prefix_of_prefix_length_le (List.take_prefix _ _) (List.takeWhile_prefix _)
      (Nat.le_trans (List.length_take_le _ _) h)
  have hquote := List.all_eq_true.mp List.all_takeWhile _ (hquotes.subset hmem)
  cases hquote

theorem decoded_content {content : Bytes → Token.Content} {said : Bytes}
    (h : Escape.decode said = Escape.decode text) (width width' : Nat) :
    (decoded content said width).content = (decoded content text width').content := by
  unfold decoded
  rw [h]
  split <;> rfl

/-- A string stands for the same if every line feed in it is hidden. -/
theorem string_matches (hreturn : carriageReturn ∉ text)
    (hfeeds : ∀ meant, (string text).content = .string meant →
    hidesLineFeeds (text.take ((string text).width - 1)) = true) :
    Matches 1 text (string text) (string (crlf text)) := by
  unfold string at hfeeds ⊢
  dsimp only at hfeeds ⊢
  rw [body_string_crlf]
  dsimp only
  split
  · next hclosed =>
    rw [if_pos hclosed] at hfeeds
    have hclose := body_closes hclosed
    generalize (body closesString text).width = width at hfeeds hclose ⊢
    rw [closesString_eq, decide_eq_true_iff] at hclose
    have hdecode : Escape.decode (crlf (text.take width)) = Escape.decode (text.take width) := by
      have hbody : carriageReturn ∉ text.take width :=
        fun hmem => hreturn (List.mem_of_mem_take hmem)
      cases hread : Escape.decode (text.take width) with
      | error fault => exact Escape.decode_crlf_of_error hbody hread
      | ok meant =>
        rw [← hread]
        have hhides := hfeeds meant (by simp [decoded, hread])
        have hwidth : (decoded Token.Content.string (text.take width) (width + 2)).width - 1 =
            width + 1 := by
          rw [decoded_width]
          rfl
        rw [hwidth, List.take_add] at hhides
        exact Escape.decode_crlf hbody (hidesLineFeeds_left hhides)
    refine matches_of (width + 1) ?_ ?_ ?_
    · rw [take_stretch]
      exact decoded_content hdecode _ _
    · rw [decoded_width]
      omega
    · rw [decoded_width, stretch_add, stretch_quotes hclose]
      omega
  · exact matches_of _ rfl (Nat.add_comm _ _) (Nat.add_comm _ _)

theorem textBlock_start (hopening : lineBreakWidth text = 0) :
    textBlock text = ⟨.error .textBlockStart, 3⟩ :=
  if_pos hopening

theorem textBlock_behind (opening : Nat) (rest : Bytes) (hopening : lineBreakWidth text = opening)
    (hpos : opening ≠ 0) (hrest : text.drop opening = rest) : textBlock text =
      let found := body closesTextBlock rest
      if found.isClosed then
        decoded .textBlock (TextBlock.layOut (rest.take found.width)) (found.width + opening + 6)
      else ⟨.error .openTextBlock, found.width + opening + 3⟩ := by
  subst hopening hrest
  exact if_neg hpos

/-- A text block stands for the same, whatever the ends of its lines are. -/
theorem textBlock_matches (hreturn : carriageReturn ∉ text) :
    Matches 3 text (textBlock text) (textBlock (crlf text)) := by
  rcases lineBreakWidth_cases text with ⟨rest, rfl, -⟩ | ⟨rest, rfl, -⟩ | hnone
  · rw [crlf_lineFeed, textBlock_behind 1 rest rfl (by decide) rfl,
      textBlock_behind 2 (crlf rest) rfl (by decide) rfl, body_textBlock_crlf]
    dsimp only
    split
    · next hclosed =>
      have hclose := body_closes hclosed
      generalize (body closesTextBlock rest).width = taken at hclose ⊢
      rw [closesTextBlock_eq, decide_eq_true_iff] at hclose
      have hbody : carriageReturn ∉ rest.take taken := fun hmem =>
        hreturn (List.mem_cons_of_mem _ (List.mem_of_mem_take hmem))
      refine matches_of (taken + 3 + 1) ?_ ?_ ?_
      · rw [take_stretch, TextBlock.layOut_crlf hbody]
        exact decoded_content rfl _ _
      · rw [decoded_width]
        omega
      · rw [decoded_width, stretch_lineFeed, stretch_add, stretch_quotes hclose]
        omega
    · refine matches_of ((body closesTextBlock rest).width + 1) rfl ?_ ?_
      · dsimp only
        omega
      · rw [stretch_lineFeed]
        dsimp only
        omega
  · exact absurd List.mem_cons_self hreturn
  · have hnone' : lineBreakWidth (crlf text) = 0 := by
      cases text with
      | nil => rfl
      | cons b rest =>
        have hfeed : b ≠ lineFeed := by
          rintro rfl
          cases hnone
        have hbreak : b ≠ carriageReturn := fun hb => hreturn (hb ▸ List.mem_cons_self)
        rw [crlf_cons hfeed, lineBreakWidth, if_neg hfeed, if_neg fun h => hbreak h.1]
    rw [textBlock_start hnone, textBlock_start hnone']
    exact matches_one _ _

/-- Two quotes behind the first one make a text block. -/
theorem quoted_eq (text : Bytes) : quoted text =
    if 2 ≤ (text.takeWhile (· == Byte.quote)).length then textBlock (text.drop 2)
    else string text := by
  match text with
  | [] => rfl
  | [a] => cases ha : a == Byte.quote <;> simp [quoted, ha]
  | a :: b :: rest =>
    cases ha : a == Byte.quote <;> cases hb : b == Byte.quote <;> simp_all [quoted]

theorem quoted_matches (hreturn : carriageReturn ∉ text)
    (hfeeds : ∀ meant, (quoted text).content = .string meant →
    hidesLineFeeds (text.take ((quoted text).width - 1)) = true) :
    Matches 1 text (quoted text) (quoted (crlf text)) := by
  rw [quoted_eq] at hfeeds
  rw [quoted_eq, quoted_eq, takeWhile_crlf rfl rfl]
  by_cases hquotes : 2 ≤ (text.takeWhile (· == Byte.quote)).length
  · rw [if_pos hquotes, if_pos hquotes]
    have hdrop := drop_stretch text 2
    rw [stretch_quotes hquotes] at hdrop
    rw [hdrop]
    have hblock : carriageReturn ∉ text.drop 2 := fun hmem => hreturn (List.mem_of_mem_drop hmem)
    obtain ⟨content, count, hfound, hfound'⟩ := textBlock_matches hblock
    rw [hfound, hfound']
    refine matches_of (count + 2) rfl ?_ ?_
    · dsimp only
      omega
    · rw [Nat.add_comm count, stretch_add, stretch_quotes hquotes]
      dsimp only
      omega
  · rw [if_neg hquotes] at hfeeds ⊢
    rw [if_neg hquotes]
    exact string_matches hreturn hfeeds

/-- A token begins in the same way in both texts. Only a line break begins with another
byte. -/
theorem token_matches {first : UInt8} (hfeed : first ≠ lineFeed)
    (hreturn : carriageReturn ∉ first :: text)
    (hfeeds : ∀ meant, (token first text).content = .string meant →
      hidesLineFeeds ((first :: text).take (token first text).width) = true) :
    Matches 0 (first :: text) (token first text) (token first (crlf text)) := by
  obtain ⟨hfirst, htext⟩ := not_or.mp (mt List.mem_cons.mpr hreturn)
  have hquoted (h : first = Byte.quote) :
      Matches 0 (first :: text) (quoted text) (quoted (crlf text)) := by
    subst h
    have htoken : token Byte.quote text = quoted text := rfl
    rw [htoken] at hfeeds
    refine .cons hfeed (quoted_matches htext fun meant h => ?_)
    have hhides := hfeeds meant h
    rw [← Nat.sub_add_cancel (quoted_width_pos text), List.take_succ_cons] at hhides
    exact ((hidesLineFeeds_cons (by decide)).mp hhides).2
  unfold token
  refine matches_ite Iff.rfl (fun _ => .cons hfeed (matches_run _ rfl rfl text)) fun _ => ?_
  refine matches_ite Iff.rfl (fun h => absurd h hfeed) fun _ => ?_
  refine matches_ite ⟨fun h => absurd h.1.symm hfirst, fun h => absurd h.1.symm hfirst⟩
    (fun h => absurd h.1.symm hfirst) fun _ => ?_
  refine matches_ite Iff.rfl (fun _ => .cons hfeed (matches_one _ text)) fun _ => ?_
  refine matches_ite (and_congr_right fun _ => head_crlf (by decide) (by decide) text)
    (fun h => ?_) fun _ => ?_
  · obtain ⟨rest, rfl⟩ := List.head?_eq_some_iff.mp h.2
    exact .cons hfeed (.cons (by decide) (comment_matches rest))
  refine matches_ite Iff.rfl (fun _ => .cons hfeed (matches_run _ rfl rfl text)) fun _ => ?_
  refine matches_ite Iff.rfl (fun _ => ?_) fun _ => ?_
  · rw [← crlf_cons hfeed]
    exact numeral_matches _
  exact matches_ite Iff.rfl hquoted fun _ => .cons hfeed (sign_matches first text)

theorem next_matches (hreturn : carriageReturn ∉ text)
    (hfeeds : ∀ meant, (next text).content = .string meant →
    hidesLineFeeds (text.take (next text).width) = true) :
    Matches 0 text (next text) (next (crlf text)) := by
  cases text with
  | nil => exact matches_one _ _
  | cons first text =>
    by_cases hfeed : first = lineFeed
    · subst hfeed
      exact ⟨.newline, 1, rfl, by rw [stretch_lineFeed, stretch_zero]; rfl⟩
    · rw [crlf_cons hfeed]
      exact token_matches hfeed hreturn hfeeds

end Matches

end Scan

/-! ## Places -/

namespace Place

/-- The same line and column, but perhaps another offset. -/
def SamePoint (p q : Place) : Prop := p.line = q.line ∧ p.column = q.column

variable {p q : Place}

theorem SamePoint.step (h : SamePoint p q) (b : UInt8) : SamePoint (p.step b) (q.step b) := by
  unfold Place.step
  split
  · exact ⟨congrArg (· + 1) h.1, rfl⟩
  · exact ⟨h.1, congrArg (· + 1) h.2⟩

/-- A carriage return only makes a line longer that is over. -/
theorem SamePoint.past_crlf (h : SamePoint p q) (text : Bytes) :
    SamePoint (p.past text) (q.past (crlf text)) := by
  induction text generalizing p q with
  | nil => exact h
  | cons b text ih =>
    by_cases hb : b = lineFeed
    · subst hb
      have hbreak : SamePoint (p.step lineFeed) ((q.step carriageReturn).step lineFeed) :=
        ⟨congrArg (· + 1) h.1, rfl⟩
      exact ih hbreak
    · rw [crlf_cons hb]
      exact ih (h.step b)

theorem SamePoint.skip (h : SamePoint p q) (count : Nat) :
    SamePoint (p.skip count) (q.skip count) :=
  ⟨h.1, congrArg (· + count) h.2⟩

end Place

/-! ## Whole documents -/

/-- The document with a carriage return before every line feed. -/
def Source.withReturns (s : Source) : Source := { s with content := crlf s.content }

/-- The two tokens stand for the same and start at the same line and column, and the text
of the second is that of the first with carriage returns. -/
structure Token.SameButReturns (t u : Token) : Prop where
  content : u.content = t.content
  lexeme : u.lexeme = crlf t.lexeme
  line : u.start.line = t.start.line
  column : u.start.column = t.start.column

namespace Lexer

variable {l k : Lexer}

/-- A second lexer has the same ahead of it but for carriage returns, at the same point. -/
structure SameButReturns (l k : Lexer) : Prop where
  ahead : k.ahead = crlf l.ahead
  place : l.place.SamePoint k.place

/-- The tokens ahead are the same, and so is what is behind them. -/
theorem SameButReturns.next (h : SameButReturns l k)
    (hmatches : Scan.Matches 0 l.ahead (Scan.next l.ahead) (Scan.next k.ahead)) :
    l.token.SameButReturns k.token ∧ SameButReturns l.rest k.rest := by
  obtain ⟨hahead, hplace⟩ := h
  obtain ⟨content, count, hnext, hnext'⟩ := hmatches
  rw [Nat.zero_add] at hnext hnext'
  have hlexeme : k.lexeme = crlf l.lexeme := by
    unfold lexeme
    rw [hnext, hnext', hahead, take_stretch]
  -- What a token counts for beyond the end of the text is the same.
  have hbeyond : stretch l.ahead count - k.lexeme.length = count - l.lexeme.length := by
    have hlength : l.lexeme = l.ahead.take count := by rw [lexeme, hnext]
    rw [hlexeme, stretch_eq, hlength, List.length_take]
    omega
  constructor
  · constructor
    · exact (congrArg Scan.content hnext').trans (congrArg Scan.content hnext).symm
    · exact hlexeme
    · exact congrArg (fun line => UInt32.ofNat (line + 1)) hplace.1.symm
    · exact congrArg (fun column => UInt32.ofNat column + 1) hplace.2.symm
  · constructor
    · unfold rest
      dsimp only
      rw [hnext, hnext', hahead, drop_stretch]
    · unfold rest
      dsimp only
      rw [hnext, hnext']
      dsimp only
      rw [hbeyond, hlexeme]
      exact (hplace.past_crlf l.lexeme).skip _

theorem SameButReturns.tokens (h : SameButReturns l k) (hreturn : carriageReturn ∉ l.ahead)
    (hfeeds : ∀ t ∈ l.tokens, ∀ text, t.content = .string text → hidesLineFeeds t.lexeme = true) :
    List.Forall₂ Token.SameButReturns l.tokens k.tokens := by
  induction l using Lexer.byTokens generalizing k with
  | nil l hahead =>
    have hkahead : k.ahead = [] := by rw [h.ahead, hahead, crlf_nil]
    have hmatches : Scan.Matches 0 l.ahead (Scan.next l.ahead) (Scan.next k.ahead) := by
      rw [hahead, hkahead]
      exact Scan.matches_one _ _
    rw [tokens_of_nil hahead, tokens_of_nil hkahead]
    exact .cons (h.next hmatches).1 .nil
  | cons l hahead ih =>
    rw [tokens_of_ne_nil hahead, List.forall_mem_cons] at hfeeds
    obtain ⟨hlexeme, hbehind⟩ := hfeeds
    have hmatches : Scan.Matches 0 l.ahead (Scan.next l.ahead) (Scan.next k.ahead) := by
      rw [h.ahead]
      exact Scan.next_matches hreturn hlexeme
    obtain ⟨htoken, hrest⟩ := h.next hmatches
    have hkahead : k.ahead ≠ [] := by
      rw [h.ahead, ne_eq, crlf_eq_nil]
      exact hahead
    rw [tokens_of_ne_nil hahead, tokens_of_ne_nil hkahead]
    exact .cons htoken (ih hrest (fun hmem => hreturn (List.mem_of_mem_drop hmem)) hbehind)

end Lexer

/-! ## The law -/

/-- A document without carriage returns has the same tokens, with the same meaning and at
the same lines and columns, when every line feed gets one before it, if in every string
that is read the line feeds are hidden. -/
theorem line_ends_do_not_change_the_tokens {s : Source} (hreturn : carriageReturn ∉ s.content)
    (hfeeds : ∀ t ∈ s.tokens, ∀ text, t.content = .string text → hidesLineFeeds t.lexeme = true) :
    List.Forall₂ Token.SameButReturns s.tokens s.withReturns.tokens := by
  have hstart : Lexer.SameButReturns (.ofSource s) (.ofSource s.withReturns) := ⟨rfl, rfl, rfl⟩
  exact hstart.tokens hreturn hfeeds

/-- Of a documented trait with two texts, each of which goes over line ends. -/
theorem a_text_block_is_the_same_between_returns :
    let s : Source :=
  ⟨[], utf8 "///  Both.\n@t([\"a\\\n b\", \"\"\"\n  c\n   d \n  \"\"\"]) // end\n-.5 \""⟩
    carriageReturn ∉ s.content ∧
      (∀ t ∈ s.tokens, ∀ text, t.content = .string text → hidesLineFeeds t.lexeme = true) ∧
      (∃ t ∈ s.tokens, t.content = .string (utf8 "a b")) ∧
      (∃ t ∈ s.tokens, t.content = .textBlock (utf8 "c\n d\n")) ∧
      List.Forall₂ Token.SameButReturns s.tokens s.withReturns.tokens := by
  intro s
  have hreturn : carriageReturn ∉ s.content := by decide +kernel
  have hall : ∀ t ∈ s.tokens, t.kind = .string → hidesLineFeeds t.lexeme = true := by decide +kernel
  have hfeeds (t) (ht : t ∈ s.tokens) (text) (htext : t.content = .string text) :
      hidesLineFeeds t.lexeme = true := hall t ht (by rw [Token.kind, htext]; rfl)
  have htexts : (∃ t ∈ s.tokens, t.content = .string (utf8 "a b")) ∧
      ∃ t ∈ s.tokens, t.content = .textBlock (utf8 "c\n d\n") := by decide +kernel
  exact ⟨hreturn, hfeeds, htexts.1, htexts.2, line_ends_do_not_change_the_tokens hreturn hfeeds⟩

end ShapeTraits
