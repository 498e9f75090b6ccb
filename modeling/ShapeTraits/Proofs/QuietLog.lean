-- The log is quiet: whatever it is told and wherever its messages go, nothing changes but
-- the error stream and its own files. The output stream, the clock and all other files stay.
import ShapeTraits.Cli.Run

namespace ShapeTraits

/-! ## Files -/

namespace Files

variable {names other : List Bytes}

theorem lookup_put (entries : List (List Bytes × Bytes)) (content : Bytes) (h : other ≠ names) :
    (entries.map fun entry => if entry.1 = names then (names, content) else entry).lookup other =
      entries.lookup other := by
  induction entries with
  | nil => rfl
  | cons entry entries ih =>
    obtain ⟨found, old⟩ := entry
    rw [List.map_cons, List.lookup_cons (b := old), ← ih]
    by_cases hfound : found = names
    · have hne : (other == names) = false := beq_false_of_ne h
      rw [hfound, if_pos rfl, List.lookup_cons, hne]
    · rw [if_neg hfound, List.lookup_cons]

/-- Only the file that is put gets another content. -/
theorem content_put (f : Files) (content : Bytes) (h : other ≠ names) :
    (f.put names content).content? other = f.content? other := by
  unfold put content?
  dsimp only
  split
  · exact lookup_put f.entries content h
  · have hne : (other == names) = false := beq_false_of_ne h
    rw [List.lookup_append, List.lookup_cons, hne]
    exact Option.or_none

end Files

/-! ## Surroundings -/

/-- Surroundings in which nothing is different but the error stream and the files of some
names. -/
structure Host.Quiet (own : List (List Bytes)) (h left : Host) : Prop where
  stdout : left.stdout = h.stdout
  clock : left.clock = h.clock
  working : left.files.working = h.files.working
  directories : left.files.directories = h.files.directories
  content : ∀ names, names ∉ own → left.files.content? names = h.files.content? names

namespace Host.Quiet

variable {own more : List (List Bytes)} {h left last : Host}

theorem refl (own : List (List Bytes)) (h : Host) : h.Quiet own h :=
  ⟨rfl, rfl, rfl, rfl, fun _ _ => rfl⟩

theorem trans (first : h.Quiet own left) (second : left.Quiet own last) : h.Quiet own last where
  stdout := second.stdout.trans first.stdout
  clock := second.clock.trans first.clock
  working := second.working.trans first.working
  directories := second.directories.trans first.directories
  content names hn := (second.content names hn).trans (first.content names hn)

theorem mono (hmore : own ⊆ more) (quiet : h.Quiet own left) : h.Quiet more left :=
  { quiet with content := fun names hn => quiet.content names fun hown => hn (hmore hown) }

theorem complain (own : List (List Bytes)) (h : Host) (text : Bytes) :
    h.Quiet own (h.complain text) :=
  { refl own h with }

theorem put (h : Host) (names : List Bytes) (content : Bytes) :
    h.Quiet [names] { h with files := h.files.put names content } :=
  { refl [names] h with
    content := fun _ hother =>
      h.files.content_put content fun heq => hother (List.mem_singleton.mpr heq) }

theorem locate (quiet : h.Quiet own left) (path : Bytes) :
    left.files.locate? path = h.files.locate? path := by
  have hfiles : left.files = ⟨h.files.working, h.files.directories, left.files.entries⟩ := by
    rw [← quiet.working, ← quiet.directories]
  rw [hfiles]
  rfl

/-- A path is read as before if it does not lead to a file of the log. -/
theorem read (quiet : h.Quiet own left) {path : Bytes}
    (hpath : ∀ names, h.files.locate? path = some names → names ∉ own) :
    left.files.read? path = h.files.read? path := by
  unfold Files.read?
  rw [quiet.locate]
  cases hlocate : h.files.locate? path with
  | none => rfl
  | some names => exact quiet.content names (hpath names hlocate)

end Host.Quiet

namespace Log

/-- What is done with a part of the log, and leaves it with its files and all else quiet. -/
structure Quietly {σ : Type} (names : σ → List (List Bytes)) (s : σ) (h : Host)
    (done : σ × Host) : Prop where
  same : names done.1 = names s
  quiet : h.Quiet (names s) done.2

namespace Quietly

variable {σ : Type} {names : σ → List (List Bytes)} {s : σ} {h : Host} {done last : σ × Host}

theorem refl (s : σ) (h : Host) : Quietly names s h (s, h) := ⟨rfl, .refl _ h⟩

theorem trans (first : Quietly names s h done) (second : Quietly names done.1 done.2 last) :
    Quietly names s h last := by
  have hsecond := second.quiet
  rw [first.same] at hsecond
  exact ⟨second.same.trans first.same, first.quiet.trans hsecond⟩

end Quietly

variable {h : Host}

/-! ## Log files -/

def LogFile.allNames (f : LogFile) : List (List Bytes) := [f.names]

theorem LogFile.flush_quietly (f : LogFile) (h : Host) : Quietly allNames f h (f.flush h) := by
  unfold LogFile.flush
  split
  · exact .refl f h
  · exact ⟨rfl, .put h f.names _⟩

theorem LogFile.add_quietly (f : LogFile) (line : Bytes) (h : Host) :
    Quietly allNames f h (f.add line h) := by
  unfold LogFile.add
  split
  · exact ⟨rfl, .refl _ h⟩
  · have hflush := LogFile.flush_quietly { f with waiting := f.waiting ++ line } h
    exact ⟨hflush.same, hflush.quiet⟩

/-! ## Sinks -/

namespace Sink

/-- The names of the file that a sink writes to. -/
def names : Sink → List (List Bytes)
  | file f => f.allNames
  | _ => []

theorem write_quietly (r : Record) (s : Sink) (h : Host) : Quietly names s h (s.write r h) := by
  cases s with
  | console colors => exact ⟨rfl, .complain _ h _⟩
  | memory records => exact ⟨rfl, .refl _ h⟩
  | file f =>
    have hadd := f.add_quietly (r.line false true) h
    generalize hfound : f.add (r.line false true) h = found at hadd
    simp only [write, hfound]
    split
    · have hflush := hadd.trans (found.1.flush_quietly found.2)
      exact ⟨hflush.same, hflush.quiet⟩
    · exact ⟨hadd.same, hadd.quiet⟩

theorem flush_quietly (s : Sink) (h : Host) : Quietly names s h (s.flush h) := by
  cases s with
  | console | memory => exact .refl _ h
  | file f =>
    have hflush := f.flush_quietly h
    exact ⟨hflush.same, hflush.quiet⟩

/-- The names of the files that some sinks write to. -/
def allNames (sinks : List Sink) : List (List Bytes) := sinks.flatMap names

/-- What every sink does quietly, all of them together do quietly. -/
theorem each_quietly {act : Sink → Host → Sink × Host} (hact : ∀ s h, Quietly names s h (act s h))
    (sinks : List Sink) (h : Host) : Quietly allNames sinks h (each act sinks h) := by
  induction sinks generalizing h with
  | nil => exact .refl [] h
  | cons s sinks ih =>
    have hfirst := hact s h
    have hrest := ih (act s h).2
    refine ⟨?_, ?_⟩
    · show names (act s h).1 ++ allNames _ = names s ++ allNames sinks
      rw [hfirst.same]
      exact congrArg _ hrest.same
    · have hs : names s ⊆ allNames (s :: sinks) := List.subset_append_left _ _
      have hsinks : allNames sinks ⊆ allNames (s :: sinks) := List.subset_append_right _ _
      exact (hfirst.quiet.mono hs).trans (hrest.quiet.mono hsinks)

end Sink

/-! ## Loggers -/

/-- The names of the log file of a configuration, if it has one that can be there. -/
def Config.names (c : Config) (h : Host) : List (List Bytes) :=
  if c.file = [] then [] else (h.files.locate? c.file).toList

namespace Logger

/-- The names of the files of a log. -/
def names (l : Logger) : List (List Bytes) := Sink.allNames l.sinks

theorem flush_quietly (l : Logger) (h : Host) : Quietly names l h (l.flush h) := by
  have hsinks := Sink.each_quietly Sink.flush_quietly l.sinks h
  exact ⟨hsinks.same, hsinks.quiet⟩

theorem log_quietly (l : Logger) (r : Record) (h : Host) : Quietly names l h (l.log r h) := by
  have hsinks := Sink.each_quietly (Sink.write_quietly r) l.sinks h
  exact ⟨hsinks.same, hsinks.quiet⟩

theorem offer_quietly (l : Logger) (r : Record) (h : Host) : Quietly names l h (l.offer r h) := by
  unfold offer
  split
  · exact l.log_quietly r h
  · exact .refl l h

theorem tell_quietly (l : Logger) (events : List Event) (h : Host) :
    Quietly names l h (l.tell events h) := by
  induction events generalizing l h with
  | nil => exact .refl l h
  | cons e events ih => exact (l.offer_quietly _ h).trans (ih _ _)

/-- The sinks of a configuration write to no other file than its own. -/
theorem configuredSinks_quiet (c : Config) (h : Host) :
    Sink.allNames (configuredSinks c h).1 = c.names h ∧
      h.Quiet (c.names h) (configuredSinks c h).2 := by
  have hconsole : Sink.allNames (if c.console then [Sink.forConsole h c.colors] else []) = [] := by
    split <;> rfl
  unfold configuredSinks Config.names LogFile.open?
  dsimp only
  split
  · exact ⟨hconsole, .refl _ h⟩
  · cases h.files.locate? c.file with
    | none => exact ⟨hconsole, .complain _ h _⟩
    | some names =>
      refine ⟨?_, .put h names _⟩
      unfold Sink.allNames at *
      dsimp only [Option.map_some]
      rw [List.flatMap_append, hconsole]
      rfl

/-- A log that is set up anew writes to the file of its configuration, and flushes those it had. -/
theorem init_quiet (c : Config) (l : Logger) (h : Host) :
    (l.init c h).1.names = c.names h ∧ h.Quiet (c.names h ++ l.names) (l.init c h).2 := by
  obtain ⟨hnames, hsinks⟩ := configuredSinks_quiet c h
  have hflush := (l.flush_quietly (configuredSinks c h).2).quiet
  exact ⟨hnames, (hsinks.mono (List.subset_append_left _ _)).trans
    (hflush.mono (List.subset_append_right _ _))⟩

theorem init_stdout (c : Config) (l : Logger) (h : Host) : (l.init c h).2.stdout = h.stdout :=
  (l.init_quiet c h).2.stdout

end Logger

end Log

/-! ## Runs -/

namespace Cli.State

@[simp] theorem tell_stdout (s : State) (events : List Log.Event) :
    (s.tell events).host.stdout = s.host.stdout :=
  (s.logger.tell_quietly events s.host).quiet.stdout

@[simp] theorem flush_stdout (s : State) : s.flush.host.stdout = s.host.stdout :=
  (s.logger.flush_quietly s.host).quiet.stdout

@[simp] theorem complain_stdout (s : State) (text : Bytes) :
    (s.complain text).host.stdout = s.host.stdout := rfl

@[simp] theorem print_stdout (s : State) (text : Bytes) :
    (s.print text).host.stdout = s.host.stdout ++ text := rfl

end Cli.State

end ShapeTraits
