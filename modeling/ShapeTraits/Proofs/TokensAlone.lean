-- A token depends on its own text only: what a scan takes from a text it finds again
-- where nothing follows, so the text of a token is a document of that one token.
import Mathlib.Data.List.TakeWhile
import ShapeTraits.Proofs.Lines
import ShapeTraits.Proofs.Seam

namespace ShapeTraits

namespace Scan

/-- What a scan finds in a text, if it is no error, is found as well in just the start of
the text that it takes. `before` bytes of the token are before the text. -/
def StandsAlone (scan : Bytes → Scan) (before : Nat) (text : Bytes) : Prop :=
  (scan text).content.fault? = none →
    ∃ taken, (scan text).width = before + taken ∧ scan (text.take taken) = scan text

section Alone

variable {text : Bytes} {before : Nat}

/-! ## Literals -/

theorem closesString_take (t : Bytes) {count : Nat} (h : 1 ≤ count) :
    closesString (t.take count) = closesString t := by
  obtain ⟨more, rfl⟩ := Nat.exists_eq_add_of_le' h
  cases t <;> rfl

theorem closesTextBlock_take (t : Bytes) {count : Nat} (h : 3 ≤ count) :
    closesTextBlock (t.take count) = closesTextBlock t := by
  obtain ⟨more, rfl⟩ := Nat.exists_eq_add_of_le' h
  rcases t with _ | ⟨a, _ | ⟨b, _ | ⟨c, t⟩⟩⟩ <;> rfl

/-- A closed body is found again if no more is left behind it than the `marks` that
close it. -/
theorem body_take {isClose : Bytes → Bool} {marks : Nat} (hmarks : 1 ≤ marks)
    (hclose : ∀ t count, marks ≤ count → isClose (t.take count) = isClose t)
    (h : (body isClose text).isClosed) :
    body isClose (text.take ((body isClose text).width + marks)) = body isClose text := by
  fun_induction body isClose text with
  | case1 => cases h
  | case2 b rest hb =>
    obtain ⟨more, rfl⟩ := Nat.exists_eq_add_of_le' hmarks
    have hb' : isClose (b :: rest.take more) = true :=
      (hclose (b :: rest) (more + 1) (Nat.le_refl _)).trans hb
    rw [Nat.zero_add, List.take_succ_cons, body.eq_def]
    exact if_pos hb'
  | case3 => cases h
  | case4 c rest hb ih =>
    have hwidth : ((body isClose rest).after 2).width + marks =
        (body isClose rest).width + marks + 2 := by
      simp only [Body.after]
      omega
    have hb' :=
      (hclose (Byte.backslash :: c :: rest) ((body isClose rest).width + marks + 2)
        (by omega)).trans (Bool.eq_false_iff.mpr hb)
    rw [hwidth, List.take_succ_cons, List.take_succ_cons]
    exact (body_escape hb').trans (congrArg (Body.after 2) (ih h))
  | case5 b rest hb hslash ih =>
    have hwidth : ((body isClose rest).after 1).width + marks =
        (body isClose rest).width + marks + 1 := by
      simp only [Body.after]
      omega
    have hb' := (hclose (b :: rest) ((body isClose rest).width + marks + 1) (by omega)).trans
      (Bool.eq_false_iff.mpr hb)
    rw [hwidth, List.take_succ_cons]
    exact (body_plain hb' hslash).trans (congrArg (Body.after 1) (ih h))

theorem string_alone (text : Bytes) : StandsAlone string 1 text := by
  intro hfault
  by_cases hclosed : (body closesString text).isClosed
  · refine ⟨(body closesString text).width + 1, ?_, ?_⟩
    · simp only [string, if_pos hclosed, decoded_width]
      omega
    · have hbody := body_take (Nat.le_refl 1) (fun t _ => closesString_take t) hclosed
      simp only [string, hbody, List.take_take, Nat.min_eq_left (Nat.le_add_right _ _)]
  · simp only [string, if_neg hclosed] at hfault
    cases hfault

theorem lineBreakWidth_take (h : lineBreakWidth text ≠ 0) (count : Nat) :
    lineBreakWidth (text.take (lineBreakWidth text + count)) = lineBreakWidth text := by
  rcases lineBreakWidth_cases text with ⟨rest, rfl, hwidth⟩ | ⟨rest, rfl, hwidth⟩ | hwidth
  · rw [hwidth, Nat.add_comm, List.take_succ_cons]
    rfl
  · rw [hwidth, Nat.add_comm, List.take_succ_cons, List.take_succ_cons]
    rfl
  · exact absurd hwidth h

theorem textBlock_alone (text : Bytes) : StandsAlone textBlock 3 text := by
  intro hfault
  by_cases hopening : lineBreakWidth text = 0
  · simp only [textBlock, if_pos hopening] at hfault
    cases hfault
  by_cases hclosed : (body closesTextBlock (text.drop (lineBreakWidth text))).isClosed
  · refine ⟨lineBreakWidth text +
        ((body closesTextBlock (text.drop (lineBreakWidth text))).width + 3), ?_, ?_⟩
    · simp only [textBlock, if_neg hopening, if_pos hclosed, decoded_width]
      omega
    · have hbody := body_take (Nat.le_add_left 1 2) (fun t _ => closesTextBlock_take t) hclosed
      simp only [textBlock, lineBreakWidth_take hopening, List.drop_take,
        Nat.add_sub_cancel_left, hbody, List.take_take, Nat.min_eq_left (Nat.le_add_right _ _)]
  · simp only [textBlock, if_neg hopening, if_neg hclosed] at hfault
    cases hfault

/-! ## Comments, numbers and runs -/

theorem take_takeWhile (p : UInt8 → Bool) (text : Bytes) :
    text.take (text.takeWhile p).length = text.takeWhile p :=
  (List.prefix_iff_eq_take.mp (List.takeWhile_prefix p)).symm

theorem comment_alone (text : Bytes) : StandsAlone comment 2 text := by
  refine fun _ => ⟨(text.takeWhile (!Byte.isLineEnd ·)).length, rfl, ?_⟩
  simp only [comment, take_takeWhile, List.takeWhile_idem]

theorem numeral_alone (text : Bytes) : StandsAlone numeral 0 text := by
  intro hfault
  cases hread : Numeral.read text with
  | error e =>
    simp only [numeral, hread] at hfault
    cases hfault
  | ok n =>
    have hparts := Numeral.read_eq_ok.mp hread
    have htake : text.take n.text.length = n.text :=
      (List.prefix_iff_eq_take.mp hparts.text_starts).symm
    have hagain := Numeral.read_append hparts.wellFormed Bytes.avoids_nil
    rw [List.append_nil] at hagain
    refine ⟨n.text.length, ?_, ?_⟩
    · simp only [numeral, hread, Nat.zero_add]
    · simp only [numeral, hread, htake, hagain]

theorem run_alone (content : Token.Content) (p : UInt8 → Bool) (text : Bytes) :
    StandsAlone (fun t => ⟨content, 1 + (t.takeWhile p).length⟩) 1 text := by
  refine fun _ => ⟨(text.takeWhile p).length, rfl, ?_⟩
  simp only [take_takeWhile, List.takeWhile_idem]

theorem one_alone (content : Token.Content) (text : Bytes) :
    StandsAlone (fun _ => ⟨content, 1⟩) 1 text :=
  fun _ => ⟨0, rfl, rfl⟩

theorem two_alone (content : Token.Content) (text : Bytes) :
    StandsAlone (fun _ => ⟨content, 2⟩) 1 text :=
  fun _ => ⟨1, rfl, rfl⟩

/-! ## Choices -/

/-- What is behind more bytes of the token stands alone if those are passed first. -/
theorem alone_drop {scan : Bytes → Scan} (count : Nat)
    (h : StandsAlone scan (before + count) (text.drop count)) :
    StandsAlone (fun t => scan (t.drop count)) before text := by
  intro hfault
  obtain ⟨taken, hwidth, hsame⟩ := h hfault
  refine ⟨count + taken, by rw [hwidth, Nat.add_assoc], ?_⟩
  simp only [List.drop_take, Nat.add_sub_cancel_left]
  exact hsame

/-- A choice stands alone if what is chosen does, the start of the text fulfils its
condition only where the text does, and does so as far as what is then chosen reaches. -/
theorem alone_ite {p : Bytes → Prop} [DecidablePred p] {f g : Bytes → Scan}
    (hp : ∀ taken, p (text.take taken) → p text)
    (hf : p text → StandsAlone f before text ∧
      ∀ taken, (f text).width = before + taken → p (text.take taken))
    (hg : ¬p text → StandsAlone g before text) :
    StandsAlone (fun t => if p t then f t else g t) before text := by
  intro hfault
  by_cases h : p text
  · obtain ⟨halone, hreach⟩ := hf h
    simp only [if_pos h] at hfault ⊢
    obtain ⟨taken, hwidth, hsame⟩ := halone hfault
    exact ⟨taken, hwidth, by rw [if_pos (hreach taken hwidth), hsame]⟩
  · simp only [if_neg h] at hfault ⊢
    obtain ⟨taken, hwidth, hsame⟩ := hg h hfault
    exact ⟨taken, hwidth, by rw [if_neg (mt (hp taken) h), hsame]⟩

/-- A choice that the text has no part in. -/
theorem alone_if {c : Prop} [Decidable c] {f g : Bytes → Scan} (hf : c → StandsAlone f before text)
    (hg : ¬c → StandsAlone g before text) :
    StandsAlone (fun t => if c then f t else g t) before text :=
  alone_ite (fun _ h => h) (fun h => ⟨hf h, fun _ _ => h⟩) hg

/-- A choice by the next byte, where what is then chosen takes that byte. -/
theorem alone_head {c : Prop} [Decidable c] {b : UInt8} {f g : Bytes → Scan}
    (hf : StandsAlone f before text) (hwidth : before < (f text).width)
    (hg : ¬(c ∧ text.head? = some b) → StandsAlone g before text) :
    StandsAlone (fun t => if c ∧ t.head? = some b then f t else g t) before text := by
  refine alone_ite (fun taken h => ⟨h.1, ?_⟩) (fun h => ⟨hf, fun taken htaken => ⟨h.1, ?_⟩⟩) hg
  · have hhead := h.2
    rw [List.head?_take] at hhead
    split at hhead
    · cases hhead
    · exact hhead
  · rw [List.head?_take, if_neg (by omega)]
    exact h.2

/-! ## All tokens -/

theorem quoted_eq_ite (text : Bytes) : quoted text =
    if [Byte.quote, Byte.quote] <+: text then textBlock (text.drop 2) else string text := by
  rcases text with _ | ⟨a, _ | ⟨b, rest⟩⟩
  · rfl
  · simp [quoted, List.cons_prefix_cons]
  · simp only [quoted, List.cons_prefix_cons, List.nil_prefix, and_true, eq_comm,
      List.drop_succ_cons, List.drop_zero]

theorem textBlock_width_ge (text : Bytes) : 3 ≤ (textBlock text).width := by
  simp only [textBlock]
  repeat' split
  · exact Nat.le_refl 3
  · rw [decoded_width]
    omega
  · exact Nat.le_add_left 3 _

/-- A text block takes both of the quotes that make it one. -/
theorem quoted_alone (text : Bytes) : StandsAlone quoted 1 text := by
  rw [funext quoted_eq_ite]
  refine alone_ite (fun taken h => h.trans (List.take_prefix _ _)) (fun h =>
    ⟨?_, fun taken htaken => ?_⟩)
    fun _ => string_alone text
  · exact alone_drop 2 (textBlock_alone _)
  · have hwidth := textBlock_width_ge (text.drop 2)
    have htwo : 2 ≤ taken := by omega
    exact List.prefix_take_iff.mpr ⟨h, htwo⟩

theorem sign_alone (first : UInt8) (text : Bytes) : StandsAlone (sign first) 1 text :=
  alone_head (two_alone _ text) (Nat.lt_add_one 1) fun _ => one_alone _ text

theorem token_alone (first : UInt8) (text : Bytes) : StandsAlone (token first) 1 text := by
  -- One choice after another, as the scan tries them.
  refine alone_if (fun _ => run_alone _ _ text) fun _ => ?_
  refine alone_if (fun _ => one_alone _ text) fun _ => ?_
  refine alone_head (two_alone _ text) (Nat.lt_add_one 1) fun _ => ?_
  refine alone_if (fun _ => one_alone _ text) fun _ => ?_
  refine alone_head (alone_drop 1 (comment_alone _))
    (Nat.lt_add_right _ (Nat.lt_add_one 1)) fun _ => ?_
  refine alone_if (fun _ => run_alone _ _ text) fun _ => ?_
  refine alone_if (fun h hfault => ?_) fun _ => ?_
  · obtain ⟨taken, hwidth, hsame⟩ := numeral_alone (first :: text) hfault
    have hpos := numeral_width_pos first text h
    obtain ⟨more, rfl⟩ : ∃ more, taken = 1 + more := Nat.exists_eq_add_of_le (by omega)
    refine ⟨more, by rw [hwidth, Nat.zero_add], ?_⟩
    rw [Nat.add_comm, List.take_succ_cons] at hsame
    exact hsame
  · exact alone_if (fun _ => quoted_alone text) fun _ => sign_alone first text

theorem next_alone (text : Bytes) : StandsAlone next 0 text := by
  cases text with
  | nil => exact fun _ => ⟨0, rfl, rfl⟩
  | cons first text =>
    intro hfault
    obtain ⟨taken, hwidth, hsame⟩ := token_alone first text hfault
    refine ⟨taken + 1, ?_, ?_⟩
    · rw [Nat.zero_add, Nat.add_comm]
      exact hwidth
    · rw [List.take_succ_cons]
      exact hsame

/-- What a token takes is scanned again as it was. -/
theorem next_take (h : (next text).content.fault? = none) :
    next (text.take (next text).width) = next text := by
  obtain ⟨taken, hwidth, hsame⟩ := next_alone text h
  rw [hwidth, Nat.zero_add, hsame]

end Alone

end Scan

theorem Token.Content.fault_eq_none {content : Content} (h : content.kind ≠ .error) :
    content.fault? = none := by
  cases content with
  | error fault => exact absurd rfl h
  | _ => rfl

/-! ## The laws -/

/-- The text of a token that is neither an error nor the end is, as a document of its
own, that one token and the end. -/
theorem a_token_depends_on_its_own_text {s : Source} {t : Token} (ht : t ∈ s.tokens)
    (herror : t.kind ≠ .error) (heof : t.kind ≠ .eof) (file : Bytes) :
    ∃ u eof, (Source.mk file t.lexeme).tokens = [u, eof] ∧ eof.kind = .eof ∧
      u.content = t.content ∧ u.lexeme = t.lexeme ∧
      lexicalErrors (Source.mk file t.lexeme).tokens = [] := by
  obtain ⟨k, rfl, -⟩ := Lexer.exists_of_mem_tokens ht
  have hfault : k.token.content.fault? = none := Token.Content.fault_eq_none herror
  have hahead : k.ahead ≠ [] := mt Lexer.token_kind_eq_eof.mpr heof
  obtain ⟨l, hl⟩ : ∃ l, l = Lexer.ofSource ⟨file, k.token.lexeme⟩ := ⟨_, rfl⟩
  have hlahead : l.ahead = k.ahead.take (Scan.next k.ahead).width := congrArg Lexer.ahead hl
  -- Before the text alone, the scan finds what it found, and leaves nothing.
  have hnext : Scan.next l.ahead = Scan.next k.ahead := by rw [hlahead, Scan.next_take hfault]
  have hlexeme : l.token.lexeme = k.token.lexeme := by
    have htake : l.token.lexeme = l.ahead.take (Scan.next l.ahead).width := rfl
    rw [htake, hnext, hlahead, List.take_take, Nat.min_self]
    rfl
  have hrest : l.rest.ahead = [] := by
    have hdrop : l.rest.ahead = l.ahead.drop (Scan.next l.ahead).width := rfl
    rw [hdrop, hnext, hlahead, List.drop_take, Nat.sub_self, List.take_zero]
  have hlne : l.ahead ≠ [] := by
    rw [hlahead]
    exact Lexer.lexeme_ne_nil hahead
  have htokens : (Source.mk file k.token.lexeme).tokens = [l.token, l.rest.token] := by
    rw [Source.tokens, ← hl, Lexer.tokens_of_ne_nil hlne, Lexer.tokens_of_nil hrest]
  have hcontent : l.token.content = k.token.content := congrArg Scan.content hnext
  have hend : l.rest.token.content = .eof := Scan.next_eq_eof.mpr hrest
  have hone : l.token.error? = none := by rw [Token.error?, hcontent, hfault, Option.map_none]
  have htwo : l.rest.token.error? = none := by
    rw [Token.error?, hend]
    rfl
  refine ⟨l.token, l.rest.token, htokens, Lexer.token_kind_eq_eof.mpr hrest, hcontent, hlexeme, ?_⟩
  rw [htokens, lexicalErrors, List.filterMap_cons_none hone, List.filterMap_cons_none htwo,
    List.filterMap_nil]

/-- A sign of two bytes, before one that it is not part of. -/
theorem a_walrus_before_a_sign_is_one_token :
    let s := Source.mk (utf8 "f") (utf8 "\"\":==")
    let t : Token := ⟨.walrus, utf8 ":=", ⟨utf8 "f", 1, 3, 2, 2⟩, ⟨utf8 "f", 1, 4, 3, 1⟩⟩
    t ∈ s.tokens ∧ t.kind ≠ .error ∧ t.kind ≠ .eof ∧
      ∃ u eof, (Source.mk [] t.lexeme).tokens = [u, eof] ∧ eof.kind = .eof ∧
        u.content = t.content ∧ u.lexeme = t.lexeme ∧
          lexicalErrors (Source.mk [] t.lexeme).tokens = [] := by
  intro s t
  have ht : t ∈ s.tokens := by decide +kernel
  have herror : t.kind ≠ .error := by decide
  have heof : t.kind ≠ .eof := by decide
  exact ⟨ht, herror, heof, a_token_depends_on_its_own_text ht herror heof []⟩

end ShapeTraits
