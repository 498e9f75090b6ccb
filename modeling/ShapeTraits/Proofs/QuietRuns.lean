-- Runs that differ only in what is asked of the log: they end with the same exit code and
-- the same output. The log has its own files and the error stream, and no part of a run
-- looks at either.
import ShapeTraits.Proofs.Output

namespace ShapeTraits

/-! ## Arguments -/

theorem Bytes.eq_append_of_after {start text rest : Bytes} (h : after? start text = some rest) :
    text = start ++ rest := by
  induction start generalizing text with
  | nil => exact Option.some.inj h
  | cons s start ih =>
    cases text with
    | nil => cases h
    | cons b text =>
      rw [after?] at h
      split at h
      · rename_i hb
        rw [hb, ih h, List.cons_append]
      · cases h

namespace Cli

/-- The arguments that are not the log's, in their order. -/
def ownArguments (arguments : List Bytes) : List Bytes :=
  arguments.filter fun a => !Log.isLogArgument a

theorem ownArguments_cons_of_log {a : Bytes} (h : Log.isLogArgument a = true)
    (arguments : List Bytes) :
    ownArguments (a :: arguments) = ownArguments arguments := by
  simp [ownArguments, h]

theorem ownArguments_cons {a : Bytes} (h : Log.isLogArgument a = false) (arguments : List Bytes) :
    ownArguments (a :: arguments) = a :: ownArguments arguments := by
  simp [ownArguments, h]

theorem not_log_of_help {a : Bytes} (h : isHelp a = true) : Log.isLogArgument a = false := by
  have ha : a = utf8 "-h" ∨ a = utf8 "--help" := by simpa [isHelp] using h
  rcases ha with rfl | rfl <;> decide +kernel

theorem not_log_of_depth {a text : Bytes} (h : Bytes.after? (utf8 "--max-depth=") a = some text) :
    Log.isLogArgument a = false := by
  rw [Bytes.eq_append_of_after h]
  rfl

/-- An argument of the log is none of the tool's own. -/
theorem Options.add_of_log {a : Bytes} (h : Log.isLogArgument a = true) (o : Options) :
    o.add a = .ok o := by
  have hpretty : a ≠ utf8 "--pretty" := by
    rintro rfl
    exact absurd h (by decide +kernel)
  have hdepth : Bytes.after? (utf8 "--max-depth=") a = none := by
    cases hafter : Bytes.after? (utf8 "--max-depth=") a with
    | none => rfl
    | some text => exact absurd h (Bool.eq_false_iff.mp (not_log_of_depth hafter))
  rw [add, if_neg hpretty, hdepth]
  exact if_pos h

theorem Options.foldlM_own (arguments : List Bytes) (o : Options) :
    (ownArguments arguments).foldlM add o = arguments.foldlM add o := by
  induction arguments generalizing o with
  | nil => rfl
  | cons a arguments ih =>
    cases hlog : Log.isLogArgument a with
    | true =>
      rw [ownArguments_cons_of_log hlog, ih, List.foldlM_cons, add_of_log hlog]
      rfl
    | false =>
      rw [ownArguments_cons hlog, List.foldlM_cons, List.foldlM_cons]
      exact congrArg (o.add a >>= ·) (funext ih)

theorem Options.ofArguments_own (arguments : List Bytes) :
    ofArguments (ownArguments arguments) = ofArguments arguments := by
  rw [ofArguments, foldlM_own, ofArguments]

theorem any_isHelp_own (arguments : List Bytes) :
    (ownArguments arguments).any isHelp = arguments.any isHelp := by
  rw [ownArguments, List.any_filter]
  congr
  funext a
  cases hhelp : isHelp a with
  | true => simp [not_log_of_help hhelp]
  | false => simp

/-! ## What a run comes to -/

/-- An exit code and an output. -/
structure Result where
  code : UInt32
  output : Bytes
  deriving DecidableEq, Repr

namespace Result

/-- What the text of a document comes to. -/
def ofSource (o : Options) (source : Source) : Result :=
  if lexicalErrors source.tokens = [] then
    match (readDocument .forward source.tokens o.limit).1 with
    | .ok statements => ⟨success, statements.flatMap (statementText o.pretty)⟩
    | .error _ => ⟨failure, []⟩
  else ⟨failure, []⟩

/-- What a document comes to, if it is there. -/
def ofContent (o : Options) : Option Bytes → Result
  | none => ⟨failure, []⟩
  | some content => ofSource o ⟨o.path, content⟩

/-- What some arguments come to among some files. -/
def ofArguments (arguments : List Bytes) (f : Files) : Result :=
  if arguments.any isHelp then ⟨success, usage⟩
  else
    match Options.ofArguments arguments with
    | .error _ => ⟨failure, usage⟩
    | .ok o => ofContent o (f.read? o.path)

theorem ofArguments_own (arguments : List Bytes) (f : Files) :
    ofArguments (ownArguments arguments) f = ofArguments arguments f := by
  rw [ofArguments, any_isHelp_own, Options.ofArguments_own, ofArguments]

end Result

/-- A run from a state on ends in a result: what it prints stands behind what was printed
before. -/
def EndsIn (ran : UInt32 × State) (s : State) (result : Result) : Prop :=
  ran.1 = result.code ∧ ran.2.host.stdout = s.host.stdout ++ result.output

variable {arguments : List Bytes} {o : Options}

theorem process_endsIn (o : Options) (source : Source) (s : State) :
    EndsIn (process o source s) s (.ofSource o source) := by
  unfold EndsIn Result.ofSource
  cases hlex : lexicalErrors source.tokens with
  | cons first more => simp [process, hlex]
  | nil =>
    rcases hread : readDocument .forward source.tokens o.limit with ⟨answer, c⟩
    cases answer <;> simp [process, hlex, hread, report]

theorem load_endsIn (o : Options) (s : State) :
    EndsIn (load o s) s (.ofContent o ((s.tell [.loading o.path]).host.files.read? o.path)) := by
  cases hread : (s.tell [.loading o.path]).host.files.read? o.path with
  | none => simp [load, hread, EndsIn, Result.ofContent]
  | some content =>
    have hload : load o s = process o ⟨o.path, content⟩ (s.tell [.loading o.path]) := by
      rw [load, hread]
    obtain ⟨hcode, houtput⟩ := process_endsIn o ⟨o.path, content⟩ (s.tell [.loading o.path])
    rw [hload]
    exact ⟨hcode, by rw [houtput, State.tell_stdout]; rfl⟩

/-- The log of a run has no file that is also the document. -/
def LogsElsewhere (arguments : List Bytes) (s : State) : Prop :=
  ∀ o, Options.ofArguments arguments = .ok o → ∀ names, s.host.files.locate? o.path = some names →
    names ∉ (Log.configure arguments s.host.logSpec).names s.host ++ s.logger.names

theorem logsElsewhere_of {s : State} {names : List Bytes}
    (hoptions : Options.ofArguments arguments = .ok o)
    (hlocate : s.host.files.locate? o.path = some names)
    (hnames : names ∉ (Log.configure arguments s.host.logSpec).names s.host ++ s.logger.names) :
    LogsElsewhere arguments s := by
  intro o' hoptions' names' hlocate'
  obtain rfl : o = o' := Except.ok.inj (hoptions.symm.trans hoptions')
  obtain rfl : names = names' := Option.some.inj (hlocate.symm.trans hlocate')
  exact hnames

theorem opened_quiet (arguments : List Bytes) (o : Options) (s : State) :
    s.host.Quiet ((Log.configure arguments s.host.logSpec).names s.host ++ s.logger.names)
      (opened arguments o s).host := by
  obtain ⟨hnames, hinit⟩ := s.logger.init_quiet (Log.configure arguments s.host.logSpec) s.host
  have htell := (Log.Logger.tell_quietly (logging arguments s).logger [.loading o.path]
    (logging arguments s).host).quiet
  have hlogging : (logging arguments s).logger.names =
      (Log.configure arguments s.host.logSpec).names s.host := hnames
  rw [hlogging] at htell
  exact hinit.trans (htell.mono (List.subset_append_left _ _))

/-- What a run comes to depends on its arguments and the files alone. -/
theorem run_endsIn {s : State} (helsewhere : LogsElsewhere arguments s) :
    EndsIn (run arguments s) s (.ofArguments arguments s.host.files) := by
  have hlogging : (logging arguments s).host.stdout = s.host.stdout := Log.Logger.init_stdout _ _ _
  by_cases hhelp : arguments.any isHelp = true
  · rw [run, Result.ofArguments, if_pos hhelp, if_pos hhelp]
    exact ⟨rfl, rfl⟩
  · rw [run, Result.ofArguments, if_neg hhelp, if_neg hhelp]
    cases hoptions : Options.ofArguments arguments with
    | error e => exact ⟨rfl, congrArg (· ++ usage) hlogging⟩
    | ok o =>
      obtain ⟨hcode, houtput⟩ := load_endsIn o (logging arguments s)
      -- The log is set up before the document is looked for, so its file may be new by then.
      have hread : (opened arguments o s).host.files.read? o.path = s.host.files.read? o.path :=
        (opened_quiet arguments o s).read (helsewhere o hoptions)
      rw [opened] at hread
      rw [hread] at hcode houtput
      rw [hlogging] at houtput
      exact ⟨hcode, (State.flush_stdout _).trans houtput⟩

/-! ## The law -/

variable {arguments' : List Bytes} {s s' : State}

/-- Logging never changes the result of a run: two runs among the same files, whose arguments
are the same but for those of the log, end with the same exit code and print the same, unless
one of them logs into its own document. All else around them may differ. -/
theorem logging_changes_neither_the_exit_code_nor_the_output
    (hown : ownArguments arguments = ownArguments arguments')
    (hfiles : s.host.files = s'.host.files)
    (hstdout : s.host.stdout = s'.host.stdout) (helsewhere : LogsElsewhere arguments s)
    (helsewhere' : LogsElsewhere arguments' s') :
    (run arguments s).1 = (run arguments' s').1 ∧
      (run arguments s).2.host.stdout = (run arguments' s').2.host.stdout := by
  obtain ⟨hcode, houtput⟩ := run_endsIn helsewhere
  obtain ⟨hcode', houtput'⟩ := run_endsIn helsewhere'
  have hresult : Result.ofArguments arguments s.host.files =
      .ofArguments arguments' s'.host.files := by
    rw [← Result.ofArguments_own, hown, Result.ofArguments_own, hfiles]
  rw [hcode, hcode', houtput, houtput', hresult, hstdout]
  exact ⟨rfl, rfl⟩

/-- A run without any settings of the log, and one on a terminal with all kinds of them. -/
theorem a_run_with_all_kinds_of_logging_prints_the_same :
    let files : Files := ⟨[], [], [([utf8 "a"], utf8 "apply x @y")]⟩
    let s : State := ⟨.initial, ⟨files, [], [], 0, false, none, none⟩⟩
    let s' : State :=
      ⟨.initial, ⟨files, [], [], 7, true, some (utf8 "xterm"), some (utf8 "lexer=off")⟩⟩
    let arguments := [utf8 "a", utf8 "--pretty"]
    let arguments' := [utf8 "-vvv", utf8 "a", utf8 "--log-file=b", utf8 "--pretty"]
    ownArguments arguments = ownArguments arguments' ∧ LogsElsewhere arguments s ∧
      LogsElsewhere arguments' s' ∧ (run arguments s).1 = success ∧
      (run arguments' s').1 = success ∧
      (run arguments' s').2.host.stdout = (run arguments s).2.host.stdout := by
  intro files s s' arguments arguments'
  have hown : ownArguments arguments = ownArguments arguments' := by decide +kernel
  have hoptions : Options.ofArguments arguments = .ok ⟨utf8 "a", true, 64⟩ := by decide +kernel
  have hoptions' : Options.ofArguments arguments' = .ok ⟨utf8 "a", true, 64⟩ := by
    rw [← Options.ofArguments_own, ← hown, Options.ofArguments_own, hoptions]
  have hlocate : files.locate? (utf8 "a") = some [utf8 "a"] := by decide +kernel
  have helsewhere : LogsElsewhere arguments s :=
    logsElsewhere_of hoptions hlocate (by decide +kernel)
  have helsewhere' : LogsElsewhere arguments' s' :=
    logsElsewhere_of hoptions' hlocate (by decide +kernel)
  have hsuccess : (run arguments s).1 = success := by decide +kernel
  have hfiles : s.host.files = s'.host.files := rfl
  have hstdout : s.host.stdout = s'.host.stdout := rfl
  have hsame := logging_changes_neither_the_exit_code_nor_the_output hown hfiles hstdout
    helsewhere helsewhere'
  exact ⟨hown, helsewhere, helsewhere', hsuccess, hsame.1.symm.trans hsuccess, hsame.2.symm⟩

end Cli

end ShapeTraits
