-- Carets stand below what is reported. Tokens start where counting the bytes before them
-- says, and none of those that are reported starts within a line end, so the text of the
-- line reaches as far as the column, and the byte there is the one at the offset.
import ShapeTraits.Proofs.DocumentationLedger
import ShapeTraits.Proofs.Frame
import ShapeTraits.Proofs.LineIndex
import ShapeTraits.Proofs.Listening
import ShapeTraits.Proofs.OneLineMessages
import ShapeTraits.Proofs.Output

namespace ShapeTraits

open Byte (lineFeed carriageReturn)
open Bytes (lastLine)

/-! ## Places by counting -/

/-- Passing a text counts its line feeds, the bytes of its last line, and all its bytes. -/
theorem Place.past_start (text : Bytes) :
    Place.start.past text = ⟨text.count lineFeed, (lastLine text).length, text.length⟩ := by
  induction text using List.reverseRecOn with
  | nil => rfl
  | append_singleton text b ih =>
    have hstep : (Place.start.past text).past [b] = (Place.start.past text).step b := rfl
    rw [past_append, hstep, ih, step]
    by_cases hb : b = lineFeed
    · subst hb
      simp [lastLine]
    · have hline : lineFeed ∉ [b] := by simpa using Ne.symm hb
      rw [if_neg hb, Bytes.lastLine_append hline]
      simp [hb]

/-! ## Where tokens end -/

namespace Scan

variable {text rest : Bytes}

/-- A text up to and with a byte ends with it. -/
theorem getLast_take {b : UInt8} {k : Nat} (h : text[k]? = some b) :
    (text.take (k + 1)).getLast? = some b := by
  rw [List.getLast?_take, if_neg (Nat.succ_ne_zero k), Nat.add_sub_cancel, h, Option.some_or]

/-- What is closed by a quote has it where it is closed. -/
theorem getElem_of_closes {k : Nat} (h : closesString (text.drop k) = true) :
    text[k]? = some Byte.quote := by
  rw [← List.head?_drop]
  cases hdrop : text.drop k with
  | nil =>
    rw [hdrop] at h
    cases h
  | cons b more =>
    rw [hdrop] at h
    exact congrArg some (beq_iff_eq.mp h)

/-- A literal that is not open ends with a quote. `before` bytes of it are before the text. -/
def EndsQuoted (before : Nat) (text : Bytes) (found : Scan) : Prop :=
  found.content.isOpen = false → ∃ k, found.width = before + k + 1 ∧ text[k]? = some Byte.quote

theorem string_endsQuoted (text : Bytes) : EndsQuoted 1 text (string text) := by
  unfold string
  dsimp only
  split
  · next hclosed =>
    refine fun _ => ⟨_, ?_, getElem_of_closes (body_closes hclosed)⟩
    rw [decoded_width]
    omega
  · exact fun hopen => Bool.noConfusion hopen

theorem closesTextBlock_last (h : closesTextBlock text = true) :
    closesString (text.drop 2) = true := by
  match text with
  | a :: b :: c :: more => exact (Bool.and_eq_true_iff.mp h).2

theorem textBlock_endsQuoted (text : Bytes) (hopening : lineBreakWidth text ≠ 0) :
    EndsQuoted 3 text (textBlock text) := by
  unfold textBlock
  dsimp only
  rw [if_neg hopening]
  split
  · next hclosed =>
    have hlast := closesTextBlock_last (body_closes hclosed)
    rw [List.drop_drop, List.drop_drop] at hlast
    refine fun _ => ⟨_, ?_, getElem_of_closes hlast⟩
    rw [decoded_width]
    omega
  · exact fun hopen => Bool.noConfusion hopen

theorem EndsQuoted.cons {before : Nat} {found : Scan} (h : EndsQuoted (before + 1) text found)
    (b : UInt8) :
    EndsQuoted before (b :: text) found := by
  intro hopen
  obtain ⟨k, hwidth, hquote⟩ := h hopen
  exact ⟨k + 1, by rw [hwidth]; omega, hquote⟩

theorem quoted_endsQuoted (text : Bytes) : EndsQuoted 1 text (quoted text) := by
  unfold quoted
  split
  · next a b rest =>
    split
    · next h =>
      obtain ⟨rfl, rfl⟩ := h
      by_cases hopening : lineBreakWidth rest = 0
      · rw [textBlock_start hopening]
        exact fun _ => ⟨1, rfl, rfl⟩
      · exact ((textBlock_endsQuoted rest hopening).cons Byte.quote).cons Byte.quote
    · exact string_endsQuoted _
  · exact string_endsQuoted _

theorem fault_of_isOpen {content : Token.Content} (h : content.isOpen = true) :
    content.fault? ≠ none := by
  cases content with
  | error fault => exact nofun
  | _ => cases h

/-- What is open goes on to the end. -/
theorem drop_of_isOpen (h : (quoted rest).content.isOpen = true) :
    (Byte.quote :: rest).drop (quoted rest).width = [] := by
  have hends := (quoted_ends rest).cons (b := Byte.quote) (by decide)
  rw [Ends, if_pos h] at hends
  exact List.drop_eq_nil_iff.mpr (by omega)

theorem getLast_of_not_isOpen (h : (quoted rest).content.isOpen = false) :
    ((Byte.quote :: rest).take (quoted rest).width).getLast? = some Byte.quote := by
  obtain ⟨k, hwidth, hquote⟩ := quoted_endsQuoted rest h
  rw [hwidth, Nat.add_comm 1 k]
  exact getLast_take hquote

/-- A token whose last byte is a carriage return is an error, and does not part it from a
line feed. -/
theorem next_of_last_return (h : text ≠ [])
    (hlast : (text.take (next text).width).getLast? = some carriageReturn) :
    (next text).content.fault? ≠ none ∧ (text.drop (next text).width).head? ≠ some lineFeed := by
  obtain ⟨first, rest, rfl⟩ := List.exists_cons_of_ne_nil h
  have hnext : next (first :: rest) = token first rest := rfl
  rw [hnext] at hlast ⊢
  rcases token_lines first rest with hline | ⟨-, hfeed⟩ | ⟨rfl, hquoted⟩ | ⟨rfl, hhead, hsign⟩
  · exact Bool.noConfusion (hline _ (List.mem_of_getLast? hlast))
  · rw [hfeed] at hlast
    cases hlast
  · rw [hquoted] at hlast ⊢
    cases hopen : (quoted rest).content.isOpen with
    | true =>
      rw [drop_of_isOpen hopen]
      exact ⟨fault_of_isOpen hopen, nofun⟩
    | false =>
      rw [getLast_of_not_isOpen hopen] at hlast
      cases hlast
  · rw [hsign]
    exact ⟨nofun, hhead⟩

end Scan

/-! ## Where tokens start -/

/-- A location behind the start of a document says what counting says, and does not part a
line end: what is before it ends with a carriage return only if its line goes on. -/
structure Location.IsBehind (s : Source) (before : Bytes) (l : Location) : Prop where
  starts : before <+: s.content
  line : l.line = (s.locate before.length).line
  column : l.column = (s.locate before.length).column
  offset : l.offset = (s.locate before.length).offset
  whole : (s.content.drop before.length).takeWhile (· ≠ lineFeed) = [] →
    before.getLast? ≠ some carriageReturn

namespace Lexer

variable {l : Lexer} {s : Source} {before : Bytes}

/-- A lexer that has passed the start of a document, and stands where counting says. Where
a line goes no further, what was passed does not end with a carriage return. -/
structure HasPassed (s : Source) (before : Bytes) (l : Lexer) : Prop where
  content : s.content = before ++ l.ahead
  place : l.place = Place.start.past before
  whole : l.ahead.takeWhile (· ≠ lineFeed) = [] → before.getLast? ≠ some carriageReturn

theorem HasPassed.token (h : HasPassed s before l) : l.token.start.IsBehind s before := by
  have hstart : l.token.start = l.place.location l.file (Scan.next l.ahead).width := rfl
  rw [h.place, Place.past_start] at hstart
  rw [hstart]
  refine ⟨⟨_, h.content.symm⟩, ?_, ?_, ?_, ?_⟩
  · rw [Source.locate_eq h.content, Nat.add_comm]
    rfl
  · rw [Source.locate_eq h.content]
    rfl
  · rw [Source.locate_eq h.content]
    rfl
  · rw [h.content, List.drop_left]
    exact h.whole

/-- Behind a token that is no error, or with more ahead, counting goes on. -/
theorem HasPassed.rest (h : HasPassed s before l) (hne : l.ahead ≠ [])
    (hgo : l.token.error? = none ∨ l.rest.ahead ≠ []) :
    HasPassed s (before ++ l.lexeme) l.rest := by
  have hwidth : (Scan.next l.ahead).width ≤ l.ahead.length := by
    rcases l.width_eq_or with ⟨hcut, hwidth⟩ | ⟨-, hwidth⟩
    · refine hgo.elim (fun hnone => absurd hcut (Token.not_isCutOff_of_no_error hnone))
        fun hmore => ?_
      exact absurd (List.drop_eq_nil_iff.mpr (by omega)) hmore
    · exact hwidth
  have hlength : l.lexeme.length = (Scan.next l.ahead).width := by
    rw [lexeme, List.length_take, Nat.min_eq_left hwidth]
  constructor
  · rw [List.append_assoc, lexeme_append_rest, h.content]
  · have hplace : l.rest.place =
        (l.place.past l.lexeme).skip ((Scan.next l.ahead).width - l.lexeme.length) := rfl
    rw [hplace, hlength, Nat.sub_self, h.place, ← Place.past_append]
    rfl
  · intro hstop hlast
    rw [List.getLast?_append_of_ne_nil _ (lexeme_ne_nil hne)] at hlast
    obtain ⟨hfault, hhead⟩ := Scan.next_of_last_return hne hlast
    have hmore : l.rest.ahead ≠ [] :=
      hgo.resolve_left fun hnone => hfault (Option.map_eq_none_iff.mp hnone)
    obtain ⟨b, more, hahead⟩ := List.exists_cons_of_ne_nil hmore
    have hdrop : l.ahead.drop (Scan.next l.ahead).width = b :: more := hahead
    rw [hdrop, List.head?_cons, Ne, Option.some.injEq] at hhead
    rw [hahead, List.takeWhile_cons_of_pos (by simpa using hhead)] at hstop
    cases hstop

/-- Every token starts where counting says, but for the end behind an error. -/
theorem HasPassed.tokens (h : HasPassed s before l) {t : Token} (ht : t ∈ l.tokens)
    (hend : t.kind = .eof → ∀ u ∈ l.tokens, u.error? = none) :
    ∃ before, t.start.IsBehind s before := by
  induction l using byTokens generalizing before with
  | nil l hnil =>
    rw [tokens_of_nil hnil, List.mem_singleton] at ht
    exact ⟨before, ht ▸ h.token⟩
  | cons l hne ih =>
    rw [tokens_of_ne_nil hne] at ht hend
    rcases List.mem_cons.mp ht with rfl | ht
    · exact ⟨before, h.token⟩
    -- Behind an error there is more than the end, which is left out there.
    have hgo : l.token.error? = none ∨ l.rest.ahead ≠ [] := by
      refine or_iff_not_imp_right.mpr fun hnil => ?_
      rw [ne_eq, not_not] at hnil
      have hlast := ht
      rw [tokens_of_nil hnil, List.mem_singleton] at hlast
      exact hend (hlast ▸ token_kind_eq_eof.mpr hnil) _ List.mem_cons_self
    exact ih (h.rest hne hgo) ht fun hkind => (List.forall_mem_cons.mp (hend hkind)).2

end Lexer

/-- The tokens of a document start where counting says, but for the end behind an error. -/
theorem Source.token_isBehind {s : Source} {t : Token} (ht : t ∈ s.tokens)
    (hend : t.kind = .eof → lexicalErrors s.tokens = []) : ∃ before, t.start.IsBehind s before := by
  have hstart : Lexer.HasPassed s [] (.ofSource s) := ⟨rfl, rfl, fun _ => nofun⟩
  exact hstart.tokens ht fun hkind => List.filterMap_eq_nil_iff.mp (hend hkind)

/-! ## The line of a location -/

namespace Source

theorem withoutReturn_append {line : Bytes} (h : line ≠ []) (before : Bytes) :
    withoutReturn (before ++ line) = before ++ withoutReturn line := by
  unfold withoutReturn
  rw [List.getLast?_append_of_ne_nil _ h]
  split
  · exact List.dropLast_append_of_ne_nil h
  · rfl

theorem withoutReturn_prefix (line : Bytes) : withoutReturn line <+: line := by
  unfold withoutReturn
  split
  · exact List.dropLast_prefix line
  · exact List.prefix_refl line

end Source

theorem Bytes.getLast_of_lastLine {text : Bytes} {b : UInt8}
    (h : (lastLine text).getLast? = some b) :
    text.getLast? = some b := by
  obtain ⟨lines, hsplit, -⟩ := exists_lastLine text
  rw [hsplit, List.getLast?_append, h, Option.some_or]

/-- A text begins with the byte that a start of it begins with. -/
theorem Bytes.head_of_start {text more : Bytes} {b : UInt8} (hstart : text <+: more)
    (h : text.head? = some b) :
    more.head? = some b := by
  obtain ⟨rest, rfl⟩ := hstart
  rw [List.head?_append, h, Option.some_or]

namespace Location.IsBehind

variable {s : Source} {before : Bytes} {l : Location} (h : l.IsBehind s before)
  (hlength : s.content.length < 2 ^ 32 - 1)

include h hlength

/-- The text of the line goes on from what the location has before it, and what comes next
in it comes next in the document. -/
theorem line_eq_append : ∃ more, s.line l.line.toNat = lastLine before ++ more ∧
    ∀ b, more.head? = some b → s.content[before.length]? = some b := by
  obtain ⟨behind, hcontent⟩ := h.starts
  have hwhole := h.whole
  rw [h.line, Source.line_toNat hlength hcontent.symm, Source.line_eq hcontent.symm,
    ← List.head?_drop]
  rw [← hcontent, List.drop_left] at hwhole ⊢
  by_cases hnil : behind.takeWhile (· ≠ lineFeed) = []
  · have hlast : (lastLine before).getLast? ≠ some carriageReturn :=
      fun hlast => hwhole hnil (Bytes.getLast_of_lastLine hlast)
    refine ⟨[], ?_, nofun⟩
    rw [hnil, List.append_nil, Source.withoutReturn, if_neg hlast]
  · refine ⟨_, Source.withoutReturn_append hnil _, fun b hb => ?_⟩
    exact Bytes.head_of_start ((Source.withoutReturn_prefix _).trans (List.takeWhile_prefix _)) hb

theorem column_toNat : l.column.toNat = (lastLine before).length + 1 := by
  obtain ⟨behind, hcontent⟩ := h.starts
  rw [h.column, Source.column_toNat hlength hcontent.symm, Nat.add_comm]

theorem offset_toNat : l.offset.toNat = before.length := by
  obtain ⟨behind, hcontent⟩ := h.starts
  have hoffset : before.length < 2 ^ 32 := by
    rw [← hcontent, List.length_append] at hlength
    omega
  rw [h.offset, Source.locate_eq hcontent.symm]
  exact UInt32.toNat_ofNat_of_lt' hoffset

end Location.IsBehind

namespace Cli

/-! ## Carets -/

/-- What is said of a document at a place. -/
structure Report where
  location : Location
  severity : Bytes
  message : Bytes
  deriving DecidableEq, Repr

/-- The diagnostic of a report. -/
def Report.text (source : Source) (r : Report) : Bytes :=
  diagnostic source r.location r.severity r.message

/-- If the line of the report has text, this is shown behind four blanks, and below it, behind
four more, a caret. Before the caret there are as many blanks as bytes before the column, tabs
below tabs. They do not go beyond the text, and the byte of the text above the caret, if there
is one, is the byte of the document at the offset. -/
def Report.PointsAtByte (source : Source) (r : Report) : Prop :=
  let shown := source.line r.location.line.toNat
  shown ≠ [] → ∃ blanks : Bytes,
    r.text source =
        r.location.text ++ utf8 ": " ++ r.severity ++ utf8 ": " ++ r.message ++ utf8 "\n" ++
          (utf8 "    " ++ shown ++ utf8 "\n") ++ (utf8 "    " ++ blanks ++ utf8 "^\n") ∧
      r.location.column.toNat = blanks.length + 1 ∧
      (∀ i < blanks.length,
        blanks[i]? = some (if shown[i]? = some Byte.tab then Byte.tab else Byte.space)) ∧
      blanks.length ≤ shown.length ∧
      ∀ b, shown[blanks.length]? = some b → source.content[r.location.offset.toNat]? = some b

theorem excerpt_of_ne_nil {source : Source} {l : Location} (h : source.line l.line.toNat ≠ []) :
    excerpt source l = utf8 "    " ++ source.line l.line.toNat ++
      utf8 "\n    " ++ caretIndent (source.line l.line.toNat) l.column.toNat ++ utf8 "^\n" := by
  unfold excerpt
  split
  · next hnil => exact absurd hnil h
  · rfl

section Indent

variable {shown : Bytes} {count : Nat} (h : count ≤ shown.length)

include h

theorem caretIndent_length : (caretIndent shown (count + 1)).length = count := by
  rw [caretIndent, List.length_map, Nat.add_sub_cancel, List.length_take_of_le h]

theorem caretIndent_getElem {i : Nat} (hi : i < count) : (caretIndent shown (count + 1))[i]? =
    some (if shown[i]? = some Byte.tab then Byte.tab else Byte.space) := by
  have hget : shown[i]? = some (shown[i]) := List.getElem?_eq_getElem (Nat.lt_of_lt_of_le hi h)
  rw [caretIndent, List.getElem?_map, Nat.add_sub_cancel, List.getElem?_take_of_lt hi, hget]
  simp

end Indent

variable {source : Source} {r : Report}

/-- A report that is located where counting says points at its byte. -/
theorem Report.pointsAtByte {before : Bytes} (h : r.location.IsBehind source before)
    (hlength : source.content.length < 2 ^ 32 - 1) : r.PointsAtByte source := by
  obtain ⟨more, happend, hnext⟩ := h.line_eq_append hlength
  have hcolumn := h.column_toNat hlength
  have hle : (lastLine before).length ≤ (source.line r.location.line.toNat).length := by
    rw [happend, List.length_append]
    exact Nat.le_add_right _ _
  have hblanks := caretIndent_length hle
  intro hshown
  refine ⟨caretIndent (source.line r.location.line.toNat) ((lastLine before).length + 1), ?_, ?_,
    fun i hi => ?_, ?_, fun b hb => ?_⟩
  · have hbreak : utf8 "\n    " = utf8 "\n" ++ utf8 "    " := by decide
    rw [text, diagnostic, excerpt_of_ne_nil hshown, hcolumn, hbreak]
    simp only [List.append_assoc]
  · rw [hblanks, hcolumn]
  · rw [hblanks] at hi
    exact caretIndent_getElem hle hi
  · rwa [hblanks]
  · rw [hblanks, happend, List.getElem?_append_right (Nat.le_refl _), Nat.sub_self,
      ← List.head?_eq_getElem?] at hb
    rw [h.offset_toNat hlength]
    exact hnext b hb

end Cli

/-! ## What is reported -/

/-- Before the end of a document, among its tokens. -/
structure Cursor.IsWithin (s : Source) (c : Cursor) : Prop where
  suffix : c.ahead <:+ s.tokens
  beforeEnd : c.BeforeEnd

namespace Cursor

variable {s : Source} {c : Cursor}

theorem kept_isWithin (s : Source) : Kept (IsWithin s) where
  advance h := ⟨(advance_suffix _).trans h.suffix, h.beforeEnd.advance⟩
  record _ _ h := ⟨h.suffix, h.beforeEnd⟩
  enter h := ⟨h.suffix, h.beforeEnd⟩
  leave h := ⟨h.suffix, h.beforeEnd⟩

theorem IsWithin.current (h : c.IsWithin s) : c.current ∈ s.tokens := by
  have hend := h.beforeEnd
  cases hahead : c.ahead with
  | nil =>
    rw [BeforeEnd, hahead] at hend
    cases hend
  | cons t rest =>
    rw [current_of_ahead hahead]
    exact h.suffix.mem (hahead ▸ List.mem_cons_self)

/-- The tokens of a document have an end, so none is added. -/
theorem ofTokens_ahead_tokens (s : Source) (limit : Nat) :
    (ofTokens s.tokens limit).ahead = s.tokens := by
  obtain ⟨before, htokens, -⟩ := (Lexer.ofSource s).tokens_eq_append
  have htokens : s.tokens = before ++ [(Lexer.ofSource s).finish.token] := htokens
  rw [htokens]
  exact ofTokens_ahead_of_end (Lexer.token_kind_eq_eof.mpr (Lexer.finish_ahead _)) before limit

theorem isWithin_ofTokens (s : Source) (limit : Nat) : (ofTokens s.tokens limit).IsWithin s where
  suffix := by rw [ofTokens_ahead_tokens]
  beforeEnd := ofTokens_beforeEnd _ limit

end Cursor

/-- A warning is located at a token that was passed. -/
theorem Ledger.warnings_located {c : Cursor} {portions : List Portion} {waiting : List Token}
    (h : Ledger c portions waiting) : ∀ w ∈ c.warnings, ∃ t ∈ c.tokens, w.location = t.start := by
  intro w hw
  rw [h.warnings, List.mem_flatMap] at hw
  obtain ⟨portion, hportion, hw⟩ := hw
  cases portion with
  | taken => cases hw
  | upTo g t gap ends =>
    have hpassed : t ∈ c.passed.reverse := by
      rw [h.passed]
      refine List.mem_append_left _ (List.mem_flatMap.mpr ⟨_, hportion, ?_⟩)
      exact List.mem_append_right g (List.mem_singleton_self t)
    refine ⟨t, List.mem_append_left _ hpassed, ?_⟩
    rw [Portion.warnings_upTo] at hw
    split at hw
    · cases hw
    · rw [List.mem_singleton.mp hw]
      rfl

/-- What is wrong with a document is wrong with a token of it, and warnings are located at
tokens of it. -/
theorem readDocument_located {s : Source} {r : Resolver} {limit : Nat}
    {answer : Except ParseError (List Apply)}
    {c : Cursor} (hread : readDocument r s.tokens limit = (answer, c)) :
    (∀ e, answer = .error e → ∃ t ∈ s.tokens, e.location = t.start) ∧
      ∀ w ∈ c.warnings, ∃ t ∈ s.tokens, w.location = t.start := by
  have hdocument : Composed True (Apply.readAll r) := .document trivial r
  constructor
  · rintro e rfl
    obtain ⟨t, ht, habout⟩ :=
      hdocument.concerns (Cursor.kept_isWithin s) (fun _ hc => hc.current) _ e c
      (Cursor.isWithin_ofTokens s limit) hread
    exact ⟨t, ht, habout.location⟩
  · have htokens : (Cursor.ofTokens s.tokens limit).tokens = s.tokens :=
    Cursor.ofTokens_ahead_tokens s limit
    have hkept := hdocument.keeps (Cursor.kept_tokens s.tokens) _ htokens
    have hgoesOn := hdocument.keeps (kept_goesOn []) _ (ledger_ofTokens s.tokens limit).goesOn
    obtain rfl : (Apply.readAll r (Cursor.ofTokens s.tokens limit)).2 = c := congrArg Prod.snd hread
    obtain ⟨more, waiting, hledger, -⟩ := hgoesOn
    intro w hw
    obtain ⟨t, ht, hlocation⟩ := hledger.warnings_located w hw
    exact ⟨t, hkept ▸ ht, hlocation⟩

namespace Cli

/-- What a run says of its document: all lexical errors, or the error that it is refused
with, or the warnings. -/
def reports (o : Options) (source : Source) : List Report :=
  match lexicalErrors source.tokens with
  | [] =>
    match readDocument .forward source.tokens o.limit with
    | (.ok _, c) => c.warnings.map fun w => ⟨w.location, utf8 "warning", w.message⟩
    | (.error e, _) => [⟨e.location, utf8 "error", e.message⟩]
  | errors => errors.map fun e => ⟨e.start, utf8 "error", e.fault.message⟩

/-- Whatever is reported is located at a token, which is the end only without lexical errors. -/
theorem reports_located {o : Options} {source : Source} :
    ∀ r ∈ reports o source, ∃ t ∈ source.tokens,
    r.location = t.start ∧ (t.kind = .eof → lexicalErrors source.tokens = []) := by
  intro r hr
  unfold reports at hr
  split at hr
  · next hnone =>
    rcases hread : readDocument .forward source.tokens o.limit with ⟨answer, c⟩
    obtain ⟨herror, hwarnings⟩ := readDocument_located hread
    rw [hread] at hr
    cases answer with
    | ok statements =>
      obtain ⟨w, hw, rfl⟩ := List.mem_map.mp hr
      obtain ⟨t, ht, hlocation⟩ := hwarnings w hw
      exact ⟨t, ht, hlocation, fun _ => hnone⟩
    | error e =>
      obtain ⟨t, ht, hlocation⟩ := herror e rfl
      exact ⟨t, ht, List.mem_singleton.mp hr ▸ hlocation, fun _ => hnone⟩
  · obtain ⟨e, he, rfl⟩ := List.mem_map.mp hr
    obtain ⟨t, ht, herror⟩ := List.mem_filterMap.mp he
    obtain ⟨hcontent, hstart⟩ := Token.error?_eq_some herror
    refine ⟨t, ht, hstart, fun hkind => ?_⟩
    rw [Token.kind, hcontent] at hkind
    cases hkind

/-- Once the log has been told, a run complains of what there is to report, and says nothing
more on the error stream but what its log does. -/
theorem process_eq (o : Options) (source : Source) (s : State) : ∃ code told out later,
    process o source s =
      (code, (((s.tell told).complain ((reports o source).flatMap (Report.text source))).print
      out).tell later) := by
  have htwice (events more : List Log.Event) :
      (s.tell events).tell more = s.tell (events ++ more) := by
    unfold State.tell
    rw [Log.Logger.tell_append]
  have hnothing (s : State) : (s.print []).tell [] = s := by
    unfold State.print Host.print
    rw [List.append_nil]
    rfl
  cases hlex : lexicalErrors source.tokens with
  | cons first more =>
    refine ⟨failure, tokenEvents source source.tokens, [], [], ?_⟩
    simp only [process, reports, hlex, hnothing, List.flatMap_map]
    rfl
  | nil =>
    rcases hread : readDocument .forward source.tokens o.limit with ⟨answer, c⟩
    cases answer with
    | ok statements =>
      refine ⟨success, tokenEvents source source.tokens ++ c.events,
        statements.flatMap (statementText o.pretty),
        [.finished statements.length c.references.length], ?_⟩
      simp only [process, reports, hlex, hread, report, htwice, List.flatMap_map]
      rfl
    | error e =>
      refine ⟨failure, tokenEvents source source.tokens ++ c.events ++ [.failed o.path], [], [], ?_⟩
      simp only [process, reports, hlex, hread, htwice, hnothing, List.flatMap_singleton]
      rfl

/-! ## The law -/

/-- Whatever a run reports of a document that is not too long, it says it in a diagnostic
whose caret stands below the byte that it is located at. -/
theorem carets_stand_below_the_reported_bytes {arguments : List Bytes} {s : State} {o : Options}
    {content : Bytes}
    (hhelp : arguments.any isHelp = false) (hoptions : Options.ofArguments arguments = .ok o)
    (hfile : (opened arguments o s).host.files.read? o.path = some content)
    (hlength : content.length < 2 ^ 32 - 1) :
    let source : Source := ⟨o.path, content⟩
    (∃ code told out later, run arguments s = (code, (((((opened arguments o s).tell told).complain
      ((reports o source).flatMap (Report.text source))).print out).tell later).flush)) ∧
    ∀ r ∈ reports o source, r.PointsAtByte source := by
  intro source
  constructor
  · obtain ⟨code, told, out, later, hprocess⟩ := process_eq o source (opened arguments o s)
    refine ⟨code, told, out, later, ?_⟩
    rw [run_eq hhelp hoptions hfile, hprocess]
  · intro r hr
    obtain ⟨t, ht, hlocation, hend⟩ := reports_located r hr
    obtain ⟨before, hbehind⟩ := Source.token_isBehind ht hend
    exact Report.pointsAtByte (hlocation ▸ hbehind) hlength

/-- A number that should not be there, behind a tab and a string that goes over a line end. -/
theorem a_caret_stands_below_a_number_behind_a_tab :
    let content : Bytes := utf8 "apply x @y(\"a\nb\"\t1)"
    let host : Host := ⟨⟨[], [], [([utf8 "m"], content)]⟩, [], [], 0, false, none, none⟩
    let s : State := ⟨.initial, host⟩
    let arguments : List Bytes := [utf8 "--log-level=off", utf8 "m"]
    let source : Source := ⟨utf8 "m", content⟩
    let r : Report :=
      ⟨⟨utf8 "m", 2, 4, 17, 1⟩, utf8 "error", utf8 "Expected ')' but found number '1'"⟩
    content.length < 2 ^ 32 - 1 ∧ (run arguments s).1 = failure ∧
      (run arguments s).2.host.stderr =
        utf8 "m:2:4: error: Expected ')' but found number '1'\n    b\"\t1)\n      \t^\n" ∧
      source.line 2 = utf8 "b\"\t1)" ∧ reports ⟨utf8 "m", false, 64⟩ source = [r] ∧
        r.PointsAtByte source := by
  intro content host s arguments source r
  have hlength : content.length < 2 ^ 32 - 1 := by decide
  have hoptions : Options.ofArguments arguments = .ok ⟨utf8 "m", false, 64⟩ := by decide +kernel
  have hfile : (opened arguments ⟨utf8 "m", false, 64⟩ s).host.files.read? (utf8 "m") =
      some content := by
    decide +kernel
  have hreports : reports ⟨utf8 "m", false, 64⟩ source = [r] := by decide +kernel
  have hpoints :=
    (carets_stand_below_the_reported_bytes (by decide +kernel) hoptions hfile hlength).2 r
    (hreports ▸ List.mem_singleton_self r)
  exact ⟨hlength, by decide +kernel, by decide +kernel, by decide +kernel, hreports, hpoints⟩

end Cli

end ShapeTraits
