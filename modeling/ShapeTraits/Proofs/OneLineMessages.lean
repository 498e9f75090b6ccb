-- Messages are one line each. Names, numbers and the names of kinds have no line feed, and
-- no fault is said with one. Only a string can have one, in its own text or in what it stands
-- for: a message has a line feed exactly if it shows such a string.
import ShapeTraits.Proofs.Concerns
import ShapeTraits.Proofs.FirstFault
import ShapeTraits.Proofs.LineEndings
import ShapeTraits.Proofs.Utf8Values

namespace ShapeTraits

open Byte (lineFeed carriageReturn)

/-! ## Tokens within a line -/

theorem Byte.no_lineEnd_of :
    ∀ b, isBlank b = true ∨ isIdentifierContinue b = true → isLineEnd b = false := by
  exact forall_of_lt (by decide +kernel)

theorem Byte.not_couldGoOn_of_lineEnd : ∀ b, isLineEnd b = true → Numeral.couldGoOn b = false := by
  exact forall_of_lt (by decide +kernel)

namespace Scan

/-- What is taken of a text has no end of a line. -/
def StaysInLine (text : Bytes) (found : Scan) : Prop :=
  ∀ b ∈ text.take found.width, Byte.isLineEnd b = false

section Lines

variable {first : UInt8} {rest text : Bytes}

theorem StaysInLine.lineFeed_not_mem {found : Scan} (h : StaysInLine text found) :
    lineFeed ∉ text.take found.width := fun hmem => Bool.noConfusion (h lineFeed hmem)

/-- Bytes of some kind behind others, none of which ends a line. -/
theorem run_staysInLine {p : UInt8 → Bool} (hp : ∀ b, p b = true → Byte.isLineEnd b = false)
    {start : Bytes}
    (hstart : ∀ b ∈ start, Byte.isLineEnd b = false) (content : Token.Content) (rest : Bytes) :
    StaysInLine (start ++ rest) ⟨content, start.length + (rest.takeWhile p).length⟩ := by
  have htake : (start ++ rest).take (start.length + (rest.takeWhile p).length) =
      start ++ rest.takeWhile p := by
    rw [List.take_length_add_append, ← List.prefix_iff_eq_take.mp (List.takeWhile_prefix p)]
  intro b hb
  rw [htake, List.mem_append] at hb
  rcases hb with hb | hb
  · exact hstart b hb
  · exact hp b (List.all_eq_true.mp List.all_takeWhile b hb)

theorem blanks_staysInLine (h : Byte.isBlank first = true) (rest : Bytes) :
    StaysInLine (first :: rest) ⟨.space, 1 + (rest.takeWhile Byte.isBlank).length⟩ :=
  run_staysInLine (fun b hb => Byte.no_lineEnd_of b (.inl hb))
    (List.forall_mem_singleton.mpr (Byte.no_lineEnd_of first (.inl h))) .space rest

theorem name_staysInLine (h : Byte.isIdentifierStart first = true) (rest : Bytes) :
    StaysInLine
      (first :: rest) ⟨.identifier, 1 + (rest.takeWhile Byte.isIdentifierContinue).length⟩ := by
  have hfirst : Byte.isIdentifierContinue first = true := by
    rw [Byte.isIdentifierContinue, h, Bool.true_or]
  exact run_staysInLine (fun b hb => Byte.no_lineEnd_of b (.inr hb))
    (List.forall_mem_singleton.mpr (Byte.no_lineEnd_of first (.inr hfirst))) .identifier rest

/-- A comment goes on to the end of the line. -/
theorem comment_staysInLine (text : Bytes) :
    StaysInLine (Byte.slash :: Byte.slash :: text) (comment text) := by
  have hslashes : ∀ b ∈ [Byte.slash, Byte.slash], Byte.isLineEnd b = false := by decide +kernel
  exact run_staysInLine (fun _ => (Bool.not_eq_true' _).mp) hslashes _ text

/-- A numeral goes on only with bytes of numerals. -/
theorem numeral_staysInLine (text : Bytes) : StaysInLine text (numeral text) := by
  have hsplit := List.takeWhile_append_dropWhile (l := text) (p := (!Byte.isLineEnd ·))
  have hline : ∀ b ∈ text.takeWhile (!Byte.isLineEnd ·), Byte.isLineEnd b = false := fun b hb => by
    simpa using List.all_eq_true.mp List.all_takeWhile b hb
  have hstop := List.head?_dropWhile_not (!Byte.isLineEnd ·) text
  generalize text.takeWhile (!Byte.isLineEnd ·) = line at hsplit hline
  generalize text.dropWhile (!Byte.isLineEnd ·) = more at hsplit hstop
  subst hsplit
  have hmore : Bytes.Avoids Numeral.couldGoOn more := by
    intro b hb
    rw [hb] at hstop
    exact Byte.not_couldGoOn_of_lineEnd b (by simpa using hstop)
  intro b hb
  rw [numeral_append_eq hmore, List.take_append_of_le_length (numeral_width_le line)] at hb
  exact hline b (List.mem_of_mem_take hb)

theorem sign_staysInLine (h : Byte.isLineEnd first = false) (rest : Bytes) :
    StaysInLine (first :: rest) (sign first rest) := by
  unfold sign
  split
  · next hwalrus =>
    obtain ⟨more, rfl⟩ := List.head?_eq_some_iff.mp hwalrus.2
    exact List.forall_mem_cons.mpr ⟨h, List.forall_mem_singleton.mpr rfl⟩
  · exact List.forall_mem_singleton.mpr h

/-- A token ends a line, or stays in one unless it is quoted or a carriage return that ends
no line. -/
theorem token_lines (first : UInt8) (rest : Bytes) :
    StaysInLine (first :: rest) (token first rest) ∨
      ((token first rest).content = .newline ∧
        ((first :: rest).take (token first rest).width).getLast? = some lineFeed) ∨
      (first = Byte.quote ∧ token first rest = quoted rest) ∨
      (first = carriageReturn ∧ rest.head? ≠ some lineFeed ∧
        token first rest = sign first rest) := by
  unfold token
  split
  · next hblank => exact .inl (blanks_staysInLine hblank rest)
  split
  · next hfeed =>
    subst hfeed
    exact .inr (.inl ⟨rfl, rfl⟩)
  split
  · next hbreak =>
    obtain ⟨rfl, hhead⟩ := hbreak
    obtain ⟨more, rfl⟩ := List.head?_eq_some_iff.mp hhead
    exact .inr (.inl ⟨rfl, rfl⟩)
  next hfeed hbreak =>
  split
  · next hcomma =>
    subst hcomma
    exact .inl (List.forall_mem_singleton.mpr rfl)
  split
  · next hslash =>
    obtain ⟨rfl, hhead⟩ := hslash
    obtain ⟨more, rfl⟩ := List.head?_eq_some_iff.mp hhead
    exact .inl (comment_staysInLine more)
  split
  · next hname => exact .inl (name_staysInLine hname rest)
  split
  · exact .inl (numeral_staysInLine _)
  split
  · next hquote => exact .inr (.inr (.inl ⟨hquote, rfl⟩))
  by_cases hreturn : first = carriageReturn
  · exact .inr (.inr (.inr ⟨hreturn, fun hhead => hbreak ⟨hreturn, hhead⟩, rfl⟩))
  · exact .inl (sign_staysInLine (by simp [Byte.isLineEnd, hfeed, hreturn]) rest)

end Lines

/-! ## What is quoted -/

section Quoted

variable {P : Token.Content → Prop}

theorem decoded_content_holds {content : Bytes → Token.Content}
    (hmeant : ∀ meant, P (content meant))
    (hescape : ∀ body fault, Escape.decode body = .error fault → P (.error (.escape fault)))
    (text : Bytes) (width : Nat) : P (decoded content text width).content := by
  unfold decoded
  split
  · exact hmeant _
  · exact hescape text _ ‹_›

/-- What holds of all that strings and text blocks can be holds of what is quoted. -/
theorem quoted_content_holds (hstring : ∀ meant, P (.string meant))
    (hblock : ∀ meant, P (.textBlock meant))
    (hfault : ∀ fault ∈ [Fault.openString, .textBlockStart, .openTextBlock], P (.error fault))
    (hescape : ∀ body fault, Escape.decode body = .error fault → P (.error (.escape fault)))
    (text : Bytes) :
    P (quoted text).content := by
  have hone (text : Bytes) : P (string text).content := by
    simp only [string]
    split
    · exact decoded_content_holds hstring hescape _ _
    · exact hfault _ (by decide)
  rw [quoted_eq]
  split
  · simp only [textBlock]
    split
    · exact hfault _ (by decide)
    split
    · exact decoded_content_holds hblock hescape _ _
    · exact hfault _ (by decide)
  · exact hone text

end Quoted

/-- Names and numbers stay in a line. -/
theorem next_staysInLine {text : Bytes}
    (h : (next text).content.kind = .identifier ∨ (next text).content.kind = .number) :
    StaysInLine text (next text) := by
  cases text with
  | nil => rcases h with h | h <;> cases h
  | cons first rest =>
    have hnext : next (first :: rest) = token first rest := rfl
    rw [hnext] at h ⊢
    have hother {content : Token.Content} (hcontent : (token first rest).content = content)
        (hkind : content.kind ≠ .identifier ∧ content.kind ≠ .number) :
        StaysInLine (first :: rest) (token first rest) := by
      rw [hcontent] at h
      exact absurd h (not_or.mpr hkind)
    rcases token_lines first rest with hline | ⟨hnewline, -⟩ | ⟨-, hquoted⟩ | ⟨rfl, -, hsign⟩
    · exact hline
    · exact hother hnewline (by decide)
    · refine hother (congrArg Scan.content hquoted) ?_
      refine quoted_content_holds (P := fun c =>
        c.kind ≠ .identifier ∧ c.kind ≠ .number) ?_ ?_ ?_ ?_ rest
      · exact fun _ => ⟨nofun, nofun⟩
      · exact fun _ => ⟨nofun, nofun⟩
      · exact fun _ _ => ⟨nofun, nofun⟩
      · exact fun _ _ _ => ⟨nofun, nofun⟩
    · have hcontent : (token carriageReturn rest).content =
          .error (.unexpectedByte carriageReturn) := by
        rw [hsign]
        rfl
      exact hother hcontent (by decide)

end Scan

/-! ## Faults -/

namespace Escape

variable {text rest : Bytes} {first : UInt8} {fault : Escape.Fault}

theorem unicode_fault_message (h : unicode text = .error fault) : lineFeed ∉ fault.message := by
  unfold unicode at h
  (repeat' split at h) <;> cases h
  all_goals decide

theorem unknown_message {b : UInt8} (h : b ≠ lineFeed) : lineFeed ∉ (Fault.unknown b).message := by
  have htext : lineFeed ∉ utf8 "Invalid escape sequence: \\" := by decide
  exact List.not_mem_append htext (by simpa using h.symm)

/-- A backslash before a line feed is no fault. -/
theorem item_fault_message (h : item first rest = .error fault) : lineFeed ∉ fault.message := by
  unfold item at h
  split at h
  · cases h
  split at h
  · cases h
    decide
  split at h
  · cases h
  split at h
  · cases h
  next hfeed =>
  split at h
  · cases h
  split at h
  · exact unicode_fault_message h
  · cases h
    exact unknown_message hfeed

theorem decode_fault_message (h : decode text = .error fault) : lineFeed ∉ fault.message := by
  fun_induction decode text with
  | case1 => cases h
  | case2 first rest other hother =>
    cases h
    exact item_fault_message hother
  | case3 first rest meant taken _ ih => exact ih (error_of_map h)

end Escape

namespace Scan

theorem numeral_fault_message {text : Bytes} {fault : Fault}
    (h : (numeral text).content = .error fault) :
    lineFeed ∉ fault.message := by
  unfold numeral at h
  split at h
  · cases h
  · next other width hread =>
    cases h
    simp only [Numeral.read] at hread
    (repeat' split at hread) <;> cases hread
    all_goals decide

theorem signContent_fault : ∀ b, (signContent b).fault? = none ∨
    signContent b = .error (.unexpectedByte b) := by
  exact Byte.forall_of_lt (by decide +kernel)

theorem sign_fault_message {first : UInt8} {rest : Bytes} {fault : Fault} (hfeed : first ≠ lineFeed)
    (h : (sign first rest).content = .error fault) : lineFeed ∉ fault.message := by
  unfold sign at h
  split at h
  · cases h
  have hbefore : lineFeed ∉ utf8 "Unexpected character '" := by decide
  have hbehind : lineFeed ∉ utf8 "'" := by decide
  dsimp only at h
  rcases signContent_fault first with hnone | hbyte
  · rw [h] at hnone
    cases hnone
  · obtain rfl : Fault.unexpectedByte first = fault := Token.Content.error.inj (hbyte.symm.trans h)
    exact List.not_mem_append (List.not_mem_append hbefore (by simpa using hfeed.symm)) hbehind

theorem quoted_fault_message (text : Bytes) :
    ∀ fault, (quoted text).content = .error fault → lineFeed ∉ fault.message := by
  refine quoted_content_holds (P := fun c => ∀ fault, c = .error fault → lineFeed ∉ fault.message)
    ?_ ?_ ?_ ?_ text
  · exact fun _ _ => nofun
  · exact fun _ _ => nofun
  · rintro fault hfault _ ⟨⟩
    revert fault
    decide
  · rintro body fault hdecode _ ⟨⟩
    exact Escape.decode_fault_message hdecode

/-- No fault is said with a line feed: the only bytes of a text that are shown are one that
begins no token, and one that begins no escape. -/
theorem next_fault_message {text : Bytes} {fault : Fault} (h : (next text).content = .error fault) :
    lineFeed ∉ fault.message := by
  cases text with
  | nil => cases h
  | cons first rest =>
    have hnext : next (first :: rest) = token first rest := rfl
    rw [hnext] at h
    rcases token_faults first rest with hnone | hnumeral | ⟨-, hquoted⟩ | hsign
    · rw [h] at hnone
      cases hnone
    · exact numeral_fault_message (hnumeral ▸ h)
    · exact quoted_fault_message rest fault (hquoted ▸ h)
    · refine sign_fault_message (fun hfeed => ?_) (hsign ▸ h)
      subst hfeed
      cases h

end Scan

/-! ## Tokens of a document -/

section Tokens

variable {s : Source} {t : Token} (ht : t ∈ s.tokens ∨ t = .missingEof)

include ht

theorem Token.fault_message {fault : Fault} (h : t.content = .error fault) :
    lineFeed ∉ fault.message := by
  rcases ht with ht | rfl
  · obtain ⟨k, rfl, -⟩ := Lexer.exists_of_mem_tokens ht
    exact Scan.next_fault_message h
  · cases h

theorem Token.lineFeed_not_mem_lexeme (h : t.kind = .identifier ∨ t.kind = .number) :
    lineFeed ∉ t.lexeme := by
  rcases ht with ht | rfl
  · obtain ⟨k, rfl, -⟩ := Lexer.exists_of_mem_tokens ht
    exact (Scan.next_staysInLine h).lineFeed_not_mem
  · rcases h with h | h <;> cases h

end Tokens

/-! ## Messages -/

section Messages

theorem Bytes.not_mem_joinWith {b : UInt8} {separator : Bytes} (hseparator : b ∉ separator)
    {pieces : List Bytes} (h : ∀ piece ∈ pieces, b ∉ piece) : b ∉ joinWith separator pieces := by
  induction pieces with
  | nil => exact List.not_mem_nil
  | cons piece pieces ih =>
    obtain ⟨hpiece, hpieces⟩ := List.forall_mem_cons.mp h
    cases pieces with
    | nil => exact hpiece
    | cons next pieces =>
      exact List.not_mem_append (List.not_mem_append hpiece hseparator) (ih hpieces)

theorem Token.Kind.text_no_feed : ∀ k : Kind, lineFeed ∉ k.text := by
  decide

/-- A token is shown as it is written or by the name of its kind. -/
theorem Token.lineFeed_mem_describe {t : Token} : lineFeed ∈ t.describe ↔
    (t.kind = .identifier ∨ t.kind = .number ∨ t.kind = .string) ∧ lineFeed ∈ t.lexeme := by
  have htext := t.kind.text_no_feed
  have hopening : lineFeed ∉ utf8 " '" := by decide
  have hclosing : lineFeed ∉ utf8 "'" := by decide
  unfold describe
  cases hkind : t.kind <;> rw [hkind] at htext <;> simp [htext, hopening, hclosing]

theorem ParseError.alternatives_no_feed (kinds : List Token.Kind) :
    lineFeed ∉ alternatives kinds := by
  have hone : lineFeed ∉ utf8 "Expected " := by decide
  have hmany : lineFeed ∉ utf8 "Expected one of " := by decide
  have hcomma : lineFeed ∉ utf8 ", " := by decide
  unfold alternatives
  split
  · exact List.not_mem_append hone (Token.Kind.text_no_feed _)
  · refine List.not_mem_append hmany (Bytes.not_mem_joinWith hcomma ?_)
    exact List.forall_mem_map.mpr fun k _ => k.text_no_feed

theorem ParseError.Cause.lineFeed_mem_unexpected {t : Token} {kinds : List Token.Kind} :
    lineFeed ∈ (Cause.unexpected t kinds).message ↔ lineFeed ∈ t.describe := by
  have hbut : lineFeed ∉ utf8 " but found " := by decide
  simp [message, alternatives_no_feed kinds, hbut]

theorem ParseError.Cause.lineFeed_mem_duplicate {owner : MemberOwner} {key : Bytes} :
    lineFeed ∈ (Cause.duplicateMember owner key).message ↔ lineFeed ∈ key := by
  have hobject : lineFeed ∉ utf8 "Duplicate member of object: '" := by decide
  have htrait : lineFeed ∉ utf8 "Duplicate member of trait: '" := by decide
  have hclosing : lineFeed ∉ utf8 "'" := by decide
  cases owner <;> simp [message, hobject, htrait, hclosing]

/-- The error shows a string that has a line feed. -/
inductive ParseError.ShowsBreakOf (e : ParseError) (t : Token) : Prop where
  /-- The string is what was found, and is shown as it is written. -/
  | written (kinds : List Token.Kind) (location : e.location = t.start)
      (cause : e.cause = .unexpected t kinds)
      (kind : t.kind = .string) (feed : lineFeed ∈ t.lexeme)
  /-- The string is a key that is there already, and what it stands for is shown. -/
  | meant (owner : MemberOwner) (key : Bytes) (location : e.location = t.start)
      (cause : e.cause = .duplicateMember owner key) (content : t.content = .string key)
        (feed : lineFeed ∈ key)

variable {s : Source} {t : Token} {e : ParseError}

theorem ParseError.ShowsBreakOf.message (h : e.ShowsBreakOf t) : lineFeed ∈ e.message := by
  rw [ParseError.message]
  cases h with
  | written kinds _ cause kind feed =>
    rw [cause, Cause.lineFeed_mem_unexpected, Token.lineFeed_mem_describe]
    exact ⟨.inr (.inr kind), feed⟩
  | meant owner key _ cause _ feed =>
    rw [cause, Cause.lineFeed_mem_duplicate]
    exact feed

theorem ParseError.IsAbout.showsBreak (h : e.IsAbout t) (ht : t ∈ s.tokens ∨ t = .missingEof)
    (hfeed : lineFeed ∈ e.message) : e.ShowsBreakOf t := by
  obtain ⟨hlocation, habout⟩ := h
  rw [ParseError.message] at hfeed
  cases hcause : e.cause with
  | fault fault kinds =>
    rw [hcause] at hfeed habout
    exact absurd hfeed (Token.fault_message ht habout)
  | unexpected found kinds =>
    rw [hcause] at hfeed habout
    obtain rfl : found = t := habout
    rw [Cause.lineFeed_mem_unexpected, Token.lineFeed_mem_describe, ← or_assoc] at hfeed
    obtain ⟨hkind | hkind, hlexeme⟩ := hfeed
    · exact absurd hlexeme (Token.lineFeed_not_mem_lexeme ht hkind)
    · exact .written kinds hlocation hcause hkind hlexeme
  | noStatement =>
    rw [hcause] at hfeed
    exact absurd hfeed (by decide)
  | duplicateMember owner key =>
    rw [hcause] at hfeed habout
    rw [Cause.lineFeed_mem_duplicate] at hfeed
    cases habout with
    | name hname =>
      exact absurd hfeed
        (Token.lineFeed_not_mem_lexeme ht (.inl (Token.kind_eq_identifier.mpr hname)))
    | string hstring => exact .meant owner key hlocation hcause hstring hfeed
  | tooDeep limit =>
    rw [hcause] at hfeed
    have htext : lineFeed ∉ utf8 "Parser exceeded the maximum allowed depth of " := by decide
    have hdigits : lineFeed ∉ Bytes.ofNat limit :=
      fun hmem => Bool.noConfusion (Bytes.ofNat_digits limit _ hmem)
    exact absurd hfeed (List.not_mem_append htext hdigits)

/-- Only strings of the document are shown, not the end that is added to tokens. -/
theorem ParseError.ShowsBreakOf.mem_tokens (h : e.ShowsBreakOf t)
    (ht : t ∈ s.tokens ∨ t = .missingEof) :
    t ∈ s.tokens := by
  refine ht.resolve_right ?_
  rintro rfl
  cases h with
  | written kinds _ _ kind _ => cases kind
  | meant owner key _ _ content _ => cases content

end Messages

/-! ## The law -/

theorem Cursor.kept_isOver (s : Source) : Kept (IsOver s) where
  advance h := h.advance
  record _ _ h := ⟨h.ahead, h.docs⟩
  enter h := ⟨h.ahead, h.docs⟩
  leave h := ⟨h.ahead, h.docs⟩

/-- From any cursor over a document on, the message of an error has a line feed exactly if
the error shows a string of the document that has one. -/
def Reading.BreaksOnlyAtStrings {α : Type} (s : Source) (read : Reading α) : Prop :=
  ∀ c e d, c.IsOver s → read c = (.error e, d) →
    (lineFeed ∈ e.message ↔ ∃ t ∈ s.tokens, e.ShowsBreakOf t)

theorem Reading.Concerns.breaksOnlyAtStrings {α : Type} {s : Source} {read : Reading α}
    (h : read.Concerns (Cursor.IsOver s) fun t => t ∈ s.tokens ∨ t = .missingEof) :
    read.BreaksOnlyAtStrings s := by
  intro c e d hc hread
  obtain ⟨t, ht, habout⟩ := h c e d hc hread
  constructor
  · intro hfeed
    have hshows := habout.showsBreak ht hfeed
    exact ⟨t, hshows.mem_tokens ht, hshows⟩
  · rintro ⟨u, -, hshows⟩
    exact hshows.message

/-- No lexical error is said with a line feed, and an error of a reading only if it shows
a string that has one: a string over several lines that should not stand where it stands, or
a key with a line feed that is there already. -/
theorem messages_are_one_line_unless_they_show_a_string_of_several (s : Source) (r : Resolver) :
    (∀ e ∈ lexicalErrors s.tokens, lineFeed ∉ e.fault.message) ∧
      (∀ tokens limit, tokens ⊆ s.tokens → (Cursor.ofTokens tokens limit).IsOver s) ∧
      (∀ given, (Node.read r given).BreaksOnlyAtStrings s) ∧ ShapeId.read.BreaksOnlyAtStrings s ∧
      (Trait.read r).BreaksOnlyAtStrings s ∧ (Trait.readAll r).BreaksOnlyAtStrings s ∧
      (Trait.readLeading r).BreaksOnlyAtStrings s ∧ (Apply.read r).BreaksOnlyAtStrings s ∧
      (Apply.readAll r).BreaksOnlyAtStrings s := by
  have hcomposed {α : Type} {read : Reading α} (h : Composed True read) :
      read.BreaksOnlyAtStrings s :=
    (h.concerns (Cursor.kept_isOver s) fun _ hc => hc.current).breaksOnlyAtStrings
  refine ⟨fun e he => ?_, fun tokens limit hsub => Cursor.isOver_ofTokens hsub limit,
    fun given => hcomposed (.value r given), hcomposed .shapeId, hcomposed (.trait trivial r),
    hcomposed (.traits trivial r), ?_, hcomposed (.statement trivial r),
      hcomposed (.document trivial r)⟩
  · obtain ⟨t, ht, herror⟩ := List.mem_filterMap.mp he
    exact Token.fault_message (.inl ht) (Token.error?_eq_some herror).1
  · exact (Trait.concerns_leading (Cursor.kept_isOver s) (fun _ hc => hc.current)
      (fun _ hc => hc.takeDocs)
      r).breaksOnlyAtStrings

/-- A string over two lines that should be a name, and a key with a line feed that is there
already, are shown in messages of two lines. -/
theorem a_string_and_a_key_break_a_message :
    let s := Source.mk [] (utf8 "\"a\nb\"")
    let twice := Source.mk [] (utf8 "\x7b\"\\n\": 1, \"\\n\": 2\x7d")
    (∃ e, errorOf (ShapeId.read (.ofTokens s.tokens 64)).1 = some e ∧
      e.message = utf8 "Expected identifier but found string '\"a\nb\"'" ∧ lineFeed ∈ e.message) ∧
    ∃ e, errorOf (Node.read .forward none (.ofTokens twice.tokens 64)).1 = some e ∧
      e.message = utf8 "Duplicate member of object: '\n'" ∧ lineFeed ∈ e.message := by
  intro s twice
  have hfirst : (errorOf (ShapeId.read (.ofTokens s.tokens 64)).1).map ParseError.message =
      some (utf8 "Expected identifier but found string '\"a\nb\"'") := by decide +kernel
  have hsecond :
      (errorOf (Node.read .forward none (.ofTokens twice.tokens 64)).1).map ParseError.message =
      some (utf8 "Duplicate member of object: '\n'") := by decide +kernel
  obtain ⟨e, he, hmessage⟩ := Option.map_eq_some_iff.mp hfirst
  obtain ⟨e', he', hmessage'⟩ := Option.map_eq_some_iff.mp hsecond
  refine ⟨⟨e, he, hmessage, ?_⟩, e', he', hmessage', ?_⟩
  · rw [hmessage]
    decide
  · rw [hmessage']
    decide

end ShapeTraits
