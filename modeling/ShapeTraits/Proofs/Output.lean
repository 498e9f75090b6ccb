-- The output of the tool: one line of plain bytes for each statement, which is read
-- back as what the statement says, or nothing at all if anything is wrong.
import Mathlib.Data.List.Forall2
import ShapeTraits.Proofs.DocumentReading
import ShapeTraits.Proofs.Lines
import ShapeTraits.Proofs.PlainText
import ShapeTraits.Proofs.QuietLog
import ShapeTraits.Proofs.StatementRecords
import ShapeTraits.Proofs.Tiling

namespace ShapeTraits

/-! ## Lines -/

namespace Bytes

/-- Lines that each end with a separator are split into just these lines. -/
theorem splitOn_flatMap {separator : UInt8} {lines : List Bytes}
    (h : ∀ line ∈ lines, separator ∉ line) :
    splitOn separator (lines.flatMap (· ++ [separator])) = lines ++ [[]] := by
  induction lines with
  | nil => rfl
  | cons line lines ih =>
    obtain ⟨hline, hlines⟩ := List.forall_mem_cons.mp h
    rw [List.flatMap_cons, List.append_assoc, List.singleton_append,
      splitOn_append hline, ih hlines]
    rfl

end Bytes

/-! ## Numbers of tokens -/

namespace Number

theorem settled_ofDigits (negative : Bool) (digits : Nat) :
    (ofDigits negative digits).settled = ofDigits negative digits := by
  unfold ofDigits
  repeat' split
  · rfl
  · rfl
  · rfl
  · rename_i hlarge hfits
    have htoNat : (UInt64.ofNat digits).toNat = digits := UInt64.toNat_ofNat_of_lt hfits
    rw [settled, htoNat, if_neg hlarge]
  · rfl

end Number

/-- The number of a numeral is unsigned only if it must be. -/
theorem Numeral.settled_value (n : Numeral) : n.value.settled = n.value := by
  unfold value
  split
  · exact Number.settled_ofDigits _ _
  · rfl

theorem Lexer.settled_of_token {l : Lexer} {t : Token} {x : Number} (ht : t ∈ l.tokens)
    (hcontent : t.content = .number x) : x.settled = x := by
  obtain ⟨k, rfl, -⟩ := exists_of_mem_tokens ht
  obtain ⟨n, -, rfl, -⟩ := Scan.next_number hcontent
  exact n.settled_value

/-! ## Statements as lines -/

/-- A line that is read back, under any name and with so many levels or more, as the
record of a statement, to its end and without references. -/
def IsLineOf (levels : Nat) (line : Bytes) (statement : Apply) : Prop :=
  ∀ file limit, levels ≤ limit → lexicalErrors (Source.mk file line).tokens = [] ∧
    ∃ m d, Node.read .forward none (.ofTokens (Source.mk file line).tokens limit) = (.ok m, d) ∧
      m.bare id = statement.record ∧ d.kind = .eof ∧ d.references = []

/-- The text of a statement whose values fit, and whose numbers are finite and come
from tokens, is a line of it. -/
theorem isLineOf_text {levels : Nat} {s : Apply} (hfits : ∀ t ∈ s.traits, t.value.Fits levels)
    (hfinite : ∀ v, .double v ∈ s.numbers → v.isFinite)
    (hsettled : ∀ x ∈ s.numbers, x.settled = x) :
    IsLineOf (levels + 3) s.toNode.text s := by
  intro file limit hlimit
  have hkeys (t : Trait) (ht : t ∈ s.traits) : t.value.hasDistinctKeys := (hfits t ht).distinct
  have htoNode := Apply.toNode_fits hfits
  -- The round trip of values asks for the numbers of the whole value, not of each trait.
  rw [← Apply.numbers_toNode hkeys] at hfinite hsettled
  have hwritten (x : Number) (hx : x ∈ s.toNode.numbers) : x.IsWritten := by
    apply Number.isWritten_of_finite
    rintro v rfl
    exact hfinite v hx
  obtain ⟨hlex, m, d, hread, hbare, hend, hrefs⟩ :=
    Node.read_write .compact hwritten htoNode.distinct
    (Nat.le_trans htoNode.depth_le hlimit) file
  refine ⟨hlex, m, d, hread, ?_, hend, hrefs⟩
  rw [hbare, Node.bare_congr (g := id) hsettled, Apply.toNode_bare hkeys]

/-- The statements that are read have values that fit, and numbers of tokens. -/
theorem read_statements {source : Source} {limit : Nat} {statements : List Apply} {c : Cursor}
    (hread : readDocument .forward source.tokens limit = (.ok statements, c)) {s : Apply}
    (hs : s ∈ statements) :
    (∀ t ∈ s.traits, t.value.Fits limit) ∧ Draws Apply.numbers source.tokens s := by
  obtain ⟨before, htokens, -⟩ := (Lexer.ofSource source).tokens_eq_append
  have htokens : source.tokens = before ++ [(Lexer.ofSource source).finish.token] := htokens
  have hend : (Lexer.ofSource source).finish.token.kind = .eof :=
    Lexer.token_kind_eq_eof.mpr (Lexer.finish_ahead _)
  have hlevels : (Cursor.ofTokens source.tokens limit).limit - 0 = limit := rfl
  obtain ⟨-, g, w, refs, -, hm, hfits, hmove⟩ := Apply.readAll_sound hlevels hread
  have hahead := hmove.ahead
  rw [htokens, Cursor.ofTokens_ahead_of_end hend, ← htokens] at hahead
  refine ⟨hfits s hs, fun x hx => ?_⟩
  obtain ⟨t, ht, hcontent⟩ := (hm.draws fun _ _ _ h => Grammar.draws_statement h) x
    (List.mem_flatMap.mpr ⟨s, hs, hx⟩)
  exact ⟨t, by rw [hahead]; simp [ht], hcontent⟩

/-- Without doubles that are not finite, the texts of the statements that are read are
lines of them. -/
theorem areLinesOf_texts {source : Source} {limit : Nat} {statements : List Apply} {c : Cursor}
    (hread : readDocument .forward source.tokens limit = (.ok statements, c))
    (hfinite : ∀ t ∈ source.tokens, ∀ v, t.content = .number (.double v) → v.isFinite) :
    List.Forall₂ (IsLineOf (limit + 3)) (statements.map (·.toNode.text)) statements := by
  rw [List.forall₂_map_left_iff, List.forall₂_same]
  intro statement hstatement
  obtain ⟨hfits, hnumbers⟩ := read_statements hread hstatement
  refine isLineOf_text hfits (fun v hv => ?_) fun x hx => ?_
  · obtain ⟨t, ht, hcontent⟩ := hnumbers _ hv
    exact hfinite t ht v hcontent
  · obtain ⟨t, ht, hcontent⟩ := hnumbers x hx
    exact Lexer.settled_of_token ht hcontent

theorem texts_plain (statements : List Apply) :
    ∀ line ∈ statements.map (·.toNode.text), line.IsPlain := by
  rw [List.forall_mem_map]
  exact fun statement _ => statement.toNode.isPlain_text

/-- What is printed for some statements is split into their texts. -/
theorem splitOn_statementText (statements : List Apply) :
    Bytes.splitOn Byte.lineFeed (statements.flatMap (Cli.statementText false)) =
      statements.map (·.toNode.text) ++ [[]] := by
  have htext : statements.flatMap (Cli.statementText false) =
      (statements.map (·.toNode.text)).flatMap (· ++ [Byte.lineFeed]) := by
    rw [List.flatMap_map]
    rfl
  rw [htext]
  exact Bytes.splitOn_flatMap fun line hline => (texts_plain statements line hline).lineFeed_not_mem

/-! ## Runs -/

namespace Cli

variable {arguments : List Bytes} {s : State} {o o' : Options} {content : Bytes} {source : Source}

theorem Options.add_pretty {argument : Bytes} (hargument : argument ≠ utf8 "--pretty")
    (h : o.add argument = .ok o') : o'.pretty = o.pretty := by
  rw [add, if_neg hargument] at h
  (repeat' split at h) <;> cases h <;> rfl

theorem Options.foldlM_pretty (hpretty : utf8 "--pretty" ∉ arguments)
    (h : arguments.foldlM add o = .ok o') : o'.pretty = o.pretty := by
  induction arguments generalizing o with
  | nil =>
    cases h
    rfl
  | cons argument arguments ih =>
    obtain ⟨hargument, harguments⟩ := not_or.mp (mt List.mem_cons.mpr hpretty)
    rw [List.foldlM_cons] at h
    cases hadd : o.add argument with
    | error e =>
      rw [hadd] at h
      cases h
    | ok next =>
      rw [hadd] at h
      exact (ih harguments h).trans (add_pretty (Ne.symm hargument) hadd)

/-- Only one argument asks for the long layout. -/
theorem Options.pretty_ofArguments (hpretty : utf8 "--pretty" ∉ arguments)
    (h : ofArguments arguments = .ok o) : o.pretty = false := by
  unfold ofArguments at h
  split at h
  · cases h
  · rename_i hfold
    split at h <;> cases h
    exact foldlM_pretty hpretty hfold

/-- The state of a run whose log is set up. -/
def logging (arguments : List Bytes) (s : State) : State :=
  let (logger, host) := s.logger.init (Log.configure arguments s.host.logSpec) s.host
  ⟨logger, host⟩

/-- The state in which a run looks for its document: its log has been told so. -/
def opened (arguments : List Bytes) (o : Options) (s : State) : State :=
  (logging arguments s).tell [.loading o.path]

theorem opened_stdout (arguments : List Bytes) (o : Options) (s : State) :
    (opened arguments o s).host.stdout = s.host.stdout := by
  rw [opened, State.tell_stdout]
  exact Log.Logger.init_stdout _ _ _

/-- A run that finds its document processes it. -/
theorem run_eq (hhelp : arguments.any isHelp = false)
    (hoptions : Options.ofArguments arguments = .ok o)
    (hfile : (opened arguments o s).host.files.read? o.path = some content) :
    run arguments s = ((process o ⟨o.path, content⟩ (opened arguments o s)).1,
      (process o ⟨o.path, content⟩ (opened arguments o s)).2.flush) := by
  have hload : load o (logging arguments s) =
      process o ⟨o.path, content⟩ (opened arguments o s) := by
    rw [opened] at hfile
    rw [load, hfile, opened]
  have hrun : run arguments s =
      ((load o (logging arguments s)).1, (load o (logging arguments s)).2.flush) := by
    rw [run, hhelp, hoptions]
    rfl
  rw [hrun, hload]

/-- What is wrong is said on the error stream only. -/
theorem process_of_error (h : lexicalErrors source.tokens ≠ [] ∨
      ∃ e c, readDocument .forward source.tokens o.limit = (.error e, c)) (s : State) :
    (process o source s).1 = failure ∧ (process o source s).2.host.stdout = s.host.stdout := by
  unfold process
  cases hlex : lexicalErrors source.tokens with
  | cons first more => simp [hlex]
  | nil =>
    obtain ⟨e, c, hread⟩ := h.resolve_left (not_not_intro hlex)
    simp [hlex, hread]

/-- A run that succeeds has read all statements and printed them. -/
theorem process_of_success (h : (process o source s).1 = success) :
    lexicalErrors source.tokens = [] ∧ ∃ statements c,
      readDocument .forward source.tokens o.limit = (.ok statements, c) ∧
      (process o source s).2.host.stdout =
        s.host.stdout ++ statements.flatMap (statementText o.pretty) := by
  have hfine : ¬(lexicalErrors source.tokens ≠ [] ∨
      ∃ e c, readDocument .forward source.tokens o.limit = (.error e, c)) := by
    intro herror
    rw [(process_of_error herror s).1] at h
    exact absurd h (by decide)
  obtain ⟨hlex, hread⟩ := not_or.mp hfine
  have hlex : lexicalErrors source.tokens = [] := Classical.not_not.mp hlex
  refine ⟨hlex, ?_⟩
  cases hfound : readDocument .forward source.tokens o.limit with
  | mk answer c =>
    cases answer with
    | error e => exact absurd ⟨e, c, hfound⟩ hread
    | ok statements => exact ⟨statements, c, rfl, by simp [process, hlex, hfound, report]⟩

/-! ## The laws -/

/-- Without `--pretty`, a run that succeeds on a document has read all its statements,
and its output is one line for each of them in their order: the lines have no
control bytes, and are read back as the records of the statements if the doubles in
the document are finite. A run on a document with an error fails without any
output. -/
theorem the_output_is_a_line_for_each_statement (hhelp : arguments.any isHelp = false)
    (hpretty : utf8 "--pretty" ∉ arguments) (hoptions : Options.ofArguments arguments = .ok o)
    (hfile : (opened arguments o s).host.files.read? o.path = some content) :
    let source : Source := ⟨o.path, content⟩
    let (code, left) := run arguments s
    (code = success → lexicalErrors source.tokens = [] ∧ ∃ statements c text lines,
      readDocument .forward source.tokens o.limit = (.ok statements, c) ∧
      left.host.stdout = s.host.stdout ++ text ∧
      Bytes.splitOn Byte.lineFeed text = lines ++ [[]] ∧ lines.length = statements.length ∧
      (∀ line ∈ lines, line.IsPlain) ∧
      ((∀ t ∈ source.tokens, ∀ v, t.content = .number (.double v) → v.isFinite) →
        List.Forall₂ (IsLineOf (o.limit + 3)) lines statements)) ∧
    (lexicalErrors source.tokens ≠ [] ∨
        (∃ e c, readDocument .forward source.tokens o.limit = (.error e, c)) →
      code = failure ∧ left.host.stdout = s.host.stdout) := by
  intro source
  rw [run_eq hhelp hoptions hfile]
  dsimp only
  -- Of the state in which the document is found, only the output counts.
  have hstart := opened_stdout arguments o s
  generalize opened arguments o s = start at hstart
  rw [State.flush_stdout, ← hstart]
  refine ⟨fun hsuccess => ?_, fun herror => process_of_error herror start⟩
  obtain ⟨hlex, statements, c, hread, hstdout⟩ := process_of_success hsuccess
  have hsplit := splitOn_statementText statements
  rw [← Options.pretty_ofArguments hpretty hoptions] at hsplit
  exact ⟨hlex, statements, c, _, _, hread, hstdout, hsplit, List.length_map _,
    texts_plain statements, areLinesOf_texts hread⟩

/-- A file with one statement, whose value is a half more than one, and a file with
half a string. -/
theorem one_statement_is_one_line_and_an_error_is_none :
    let good : Bytes := utf8 "apply x @y(1.5)"
    let bad : Bytes := utf8 "\""
    let host : Host :=
      ⟨⟨[], [], [([utf8 "good"], good), ([utf8 "bad"], bad)]⟩, [], [], 0, false, none, none⟩
    let s : State := ⟨.initial, host⟩
    let line : Bytes := utf8 "\x7b\"target\":\"x\",\"traits\":" ++
      utf8 "[\x7b\"name\":\"y\",\"kind\":\"value\",\"value\":1.5\x7d]\x7d"
    (run [utf8 "good"] s).1 = success ∧
      (run [utf8 "good"] s).2.host.stdout = line ++ [Byte.lineFeed] ∧
      line.IsPlain ∧ (∃ statement, IsLineOf 67 line statement) ∧
      (run [utf8 "bad"] s).1 = failure ∧ (run [utf8 "bad"] s).2.host.stdout = [] := by
  intro good bad host s line
  have hoptions (file : Bytes) (h : file ∈ [utf8 "good", utf8 "bad"]) :
      Options.ofArguments [file] = .ok ⟨file, false, 64⟩ := by
    revert file
    decide +kernel
  have hfound : (opened [utf8 "good"] ⟨utf8 "good", false, 64⟩ s).host.files.read? (utf8 "good") =
      some good := by decide +kernel
  have hfound' : (opened [utf8 "bad"] ⟨utf8 "bad", false, 64⟩ s).host.files.read? (utf8 "bad") =
      some bad := by decide +kernel
  have hgood := (the_output_is_a_line_for_each_statement (by decide +kernel) (by decide +kernel)
    (hoptions (utf8 "good") (by decide)) hfound).1
  have hbad := (the_output_is_a_line_for_each_statement (by decide +kernel) (by decide +kernel)
    (hoptions (utf8 "bad") (by decide)) hfound').2 (.inl (by decide +kernel))
  have hsuccess : (run [utf8 "good"] s).1 = success := by decide +kernel
  have hprinted : (run [utf8 "good"] s).2.host.stdout = line ++ [Byte.lineFeed] := by decide +kernel
  have hnumbers : (Source.mk (utf8 "good") good).tokens.filterMap (·.content.number?) =
      [.double ⟨4609434218613702656⟩] := by decide +kernel
  have hfinite : ∀ t ∈ (Source.mk (utf8 "good") good).tokens, ∀ v, t.content = .number (.double v) →
      v.isFinite := by
    intro t ht v hcontent
    have hv :
        Number.double v ∈ (Source.mk (utf8 "good") good).tokens.filterMap (·.content.number?) :=
      List.mem_filterMap.mpr ⟨t, ht, by rw [hcontent]; rfl⟩
    rw [hnumbers, List.mem_singleton] at hv
    cases hv
    decide
  obtain ⟨-, statements, c, text, lines, -, hstdout, hlines, -, hplain, hrecords⟩ := hgood hsuccess
  have htext : line ++ [Byte.lineFeed] = text := hprinted.symm.trans hstdout
  have hsplit : Bytes.splitOn Byte.lineFeed (line ++ [Byte.lineFeed]) = [line] ++ [[]] := by
    decide +kernel
  rw [← htext, hsplit, List.append_cancel_right_eq] at hlines
  subst hlines
  obtain ⟨statement, -, hline, -, -⟩ := List.forall₂_cons_left_iff.mp (hrecords hfinite)
  exact ⟨hsuccess, hprinted, hplain line (List.mem_singleton_self line), ⟨statement, hline⟩, hbad⟩

end Cli

end ShapeTraits
