-- Specifications of a filter without a reader of them: which entries name a module or the
-- others, which of these entries counts, and which threshold a module gets from it.
import ShapeTraits.Proofs.LastWord
import ShapeTraits.Proofs.LevelGate

namespace ShapeTraits

/-! ## Cutting and trimming -/

namespace Bytes

variable {separator b : UInt8} {text left : Bytes} {p : UInt8 → Bool}

theorem cut_of_not_mem (h : separator ∉ text) : cut separator text = (text, none) := by
  induction text with
  | nil => rfl
  | cons b text ih =>
    obtain ⟨hb, htext⟩ := not_or.mp (mt List.mem_cons.mpr h)
    rw [cut, if_neg (Ne.symm hb), ih htext]

theorem cut_append (h : separator ∉ left) (right : Bytes) :
    cut separator (left ++ separator :: right) = (left, some right) := by
  induction left with
  | nil => exact if_pos rfl
  | cons b left ih =>
    obtain ⟨hb, hleft⟩ := not_or.mp (mt List.mem_cons.mpr h)
    rw [List.cons_append, cut, if_neg (Ne.symm hb), ih hleft]

/-- Both sides of a byte that stays are trimmed at their outer ends. -/
theorem trim_append_of_stop (hb : p b = false) (left right : Bytes) :
    trim p (left ++ b :: right) = left.dropWhile p ++ b :: dropTrailing p right := by
  rw [trim, dropWhile_append_of_stop hb, dropTrailing_append_of_stop hb]

end Bytes

namespace Log.Filter

/-! ## Spaces around a text -/

def spaces (n : Nat) : Bytes := List.replicate n Byte.space

/-- A text that is another one with spaces around it, which has none at its ends. -/
structure Pads (text core : Bytes) : Prop where
  around : ∃ m n, text = spaces m ++ core ++ spaces n
  first : core.head? ≠ some Byte.space
  last : core.getLast? ≠ some Byte.space

variable {text core : Bytes}

theorem eq_spaces (h : ∀ b ∈ text, (b == Byte.space) = true) : text = spaces text.length :=
  List.eq_replicate_of_mem fun b hb => beq_iff_eq.mp (h b hb)

theorem dropWhile_spaces (n : Nat) (h : text.head? ≠ some Byte.space) :
    (spaces n ++ text).dropWhile (· == Byte.space) = text := by
  induction n with
  | zero =>
    cases text with
    | nil => rfl
    | cons b text =>
      have hb : (b == Byte.space) = false := by simpa using h
      simp [spaces, hb]
  | succ n ih => simpa [spaces, List.replicate_succ] using ih

theorem head_dropWhile (text : Bytes) :
    (text.dropWhile (· == Byte.space)).head? ≠ some Byte.space := by
  intro h
  have hnot := List.head?_dropWhile_not (· == Byte.space) text
  rw [h] at hnot
  simp at hnot

namespace Pads

theorem before (n : Nat) (h : Pads text core) : Pads (spaces n ++ text) core := by
  obtain ⟨⟨k, m, rfl⟩, hfirst, hlast⟩ := h
  refine ⟨⟨n + k, m, ?_⟩, hfirst, hlast⟩
  simp [spaces, ← List.replicate_append_replicate]

theorem behind (n : Nat) (h : Pads text core) : Pads (text ++ spaces n) core := by
  obtain ⟨⟨k, m, rfl⟩, hfirst, hlast⟩ := h
  refine ⟨⟨k, m + n, ?_⟩, hfirst, hlast⟩
  simp [spaces, ← List.replicate_append_replicate]

theorem trimmed_eq (h : Pads text core) : trimmed text = core := by
  obtain ⟨⟨m, n, rfl⟩, hfirst, hlast⟩ := h
  unfold trimmed Bytes.trim Bytes.dropTrailing
  cases core with
  | nil =>
    have hall : spaces m ++ [] ++ spaces n = spaces (m + n) ++ [] := by simp [spaces]
    rw [hall, dropWhile_spaces _ hfirst]
    rfl
  | cons b core =>
    have hreverse : (b :: core ++ spaces n).reverse = spaces n ++ (b :: core).reverse := by
      rw [List.reverse_append, spaces, List.reverse_replicate]
    have hhead : (b :: core ++ spaces n).head? ≠ some Byte.space := hfirst
    rw [List.append_assoc, dropWhile_spaces m hhead, hreverse,
      dropWhile_spaces n (by rwa [List.head?_reverse]), List.reverse_reverse]

end Pads

/-- Trimming takes just the spaces away. -/
theorem pads_trimmed (text : Bytes) : Pads text (trimmed text) := by
  obtain ⟨dropped, hrest, hdropped⟩ :=
    Bytes.dropTrailing_append (· == Byte.space) (text.dropWhile (· == Byte.space))
  have hcore : text.dropWhile (· == Byte.space) = trimmed text ++ spaces dropped.length := by
    rw [← eq_spaces hdropped]
    exact hrest
  refine ⟨⟨(text.takeWhile (· == Byte.space)).length, dropped.length, ?_⟩, ?_, ?_⟩
  · rw [List.append_assoc, ← hcore, ← eq_spaces (List.all_eq_true.mp List.all_takeWhile),
      List.takeWhile_append_dropWhile]
  · cases htrimmed : trimmed text with
    | nil => simp
    | cons b core =>
      have hhead := head_dropWhile text
      rwa [hcore, htrimmed] at hhead
  · unfold trimmed Bytes.trim Bytes.dropTrailing
    rw [List.getLast?_reverse]
    exact head_dropWhile _

/-! ## Entries -/

/-- An entry that gives a name a level: `name=level`. -/
def Sets (entry name : Bytes) (level : Level) : Prop :=
  ∃ left right text, entry = left ++ Byte.equals :: right ∧ Byte.equals ∉ left ∧
    Pads left name ∧ Pads right text ∧ level = Level.ofName text

/-- An entry that is a name alone. -/
def Follows (entry name : Bytes) : Prop := Byte.equals ∉ entry ∧ Pads entry name

/-- An entry that names a module gives it a level, or follows it closely. -/
def Names (entry name : Bytes) (level : Level) : Prop :=
  name ≠ [] ∧ (Sets entry name level ∨ Follows entry name ∧ level = .trace)

/-- The name that stands for all modules without an entry of their own. -/
def others : Bytes := utf8 "*"

/-- Some entry names the module. -/
def IsNamed (entries : List Bytes) (name : Bytes) : Prop :=
  ∃ entry ∈ entries, ∃ level, Names entry name level

/-- The threshold of a module, from some entries and the configured level: that of the last
entry that names it, else that of the last one for the others, else the configured level. -/
inductive Threshold (entries : List Bytes) (configured : Level) (name : Bytes) : Level → Prop
  | own {level : Level} (last : LastWord (Names · name) entries level) :
      Threshold entries configured name level
  | others {level : Level} (unnamed : ¬IsNamed entries name)
      (last : LastWord (Sets · others) entries level) : Threshold entries configured name level
  | configured (unnamed : ¬IsNamed entries name) (unset : Silent (Sets · others) entries) :
      Threshold entries configured name configured

variable {f : Filter} {entry name other : Bytes} {entries : List Bytes} {level l : Level}

theorem sets_or_follows (entry : Bytes) :
    (∃ name level, Sets entry name level) ∨ ∃ name, Follows entry name := by
  by_cases h : Byte.equals ∈ entry
  · obtain ⟨left, right, rfl, hleft⟩ := List.eq_append_cons_of_mem h
    exact .inl ⟨_, _, left, right, _, rfl, hleft, pads_trimmed left, pads_trimmed right, rfl⟩
  · exact .inr ⟨_, h, pads_trimmed entry⟩

theorem withEntry_of_follows (h : Follows entry name) :
    f.withEntry entry = if name = [] then f else f.withModule name .trace := by
  obtain ⟨hequals, hname⟩ := h
  have hequals : Byte.equals ∉ trimmed entry := by
    obtain ⟨⟨m, n, hentry⟩, -, -⟩ := pads_trimmed entry
    intro hmem
    apply hequals
    rw [hentry]
    simp [hmem]
  unfold withEntry
  rw [Bytes.cut_of_not_mem hequals, hname.trimmed_eq]

/-- An entry is trimmed as a whole before it is cut, which changes neither part of it. -/
theorem withEntry_of_sets (h : Sets entry name level) :
    f.withEntry entry = if name = others then f.withFallback level
      else if name = [] then f else f.withModule name level := by
  obtain ⟨left, right, text, rfl, hequals, hname, htext, rfl⟩ := h
  have htrimmed : trimmed (left ++ Byte.equals :: right) = left.dropWhile (· == Byte.space) ++
      Byte.equals :: Bytes.dropTrailing (· == Byte.space) right :=
    Bytes.trim_append_of_stop rfl left right
  have hleft : trimmed (left.dropWhile (· == Byte.space)) = name := by
    rw [← hname.trimmed_eq]
    have hpads := (pads_trimmed (left.dropWhile (· == Byte.space))).before
      (left.takeWhile (· == Byte.space)).length
    rw [← eq_spaces (List.all_eq_true.mp List.all_takeWhile), List.takeWhile_append_dropWhile]
      at hpads
    exact hpads.trimmed_eq.symm
  have hright : trimmed (Bytes.dropTrailing (· == Byte.space) right) = text := by
    rw [← htext.trimmed_eq]
    obtain ⟨dropped, hsplit, hdropped⟩ := Bytes.dropTrailing_append (· == Byte.space) right
    have hpads := (pads_trimmed (Bytes.dropTrailing (· == Byte.space) right)).behind dropped.length
    rw [← eq_spaces hdropped, ← hsplit] at hpads
    exact hpads.trimmed_eq.symm
  have hequals : Byte.equals ∉ left.dropWhile (· == Byte.space) :=
    fun hmem => hequals ((List.dropWhile_suffix _).subset hmem)
  unfold withEntry
  rw [htrimmed, if_neg (by simp), Bytes.cut_append hequals]
  dsimp only
  rw [hleft, hright]
  rfl

/-! ## What an entry changes -/

theorem lookup_without (h : name ≠ other) (modules : List (Bytes × Level)) :
    (modules.filter (·.1 != other)).lookup name = modules.lookup name := by
  induction modules with
  | nil => rfl
  | cons entry modules ih =>
    obtain ⟨own, level⟩ := entry
    by_cases hown : own = other
    · have hne : (name == own) = false := beq_false_of_ne (hown ▸ h)
      rw [List.filter_cons_of_neg (by simp [hown]), ih, List.lookup_cons, hne]
    · rw [List.filter_cons_of_pos (by simp [hown]), List.lookup_cons, List.lookup_cons, ih]

theorem lookup_withModule (f : Filter) (other name : Bytes) (level : Level) :
    (f.withModule other level).modules.lookup name =
      if name = other then some level else f.modules.lookup name := by
  unfold withModule
  by_cases h : name = other
  · simp [h]
  · have hne : (name == other) = false := beq_false_of_ne h
    rw [if_neg h, List.lookup_cons, hne]
    exact lookup_without h f.modules

theorem lookup_withEntry_of_names (f : Filter) (hname : name ≠ others)
    (h : Names entry name level) :
    (f.withEntry entry).modules.lookup name = some level := by
  obtain ⟨hne, hsets | ⟨hfollows, rfl⟩⟩ := h
  · rw [withEntry_of_sets hsets, if_neg hname, if_neg hne, lookup_withModule, if_pos rfl]
  · rw [withEntry_of_follows hfollows, if_neg hne, lookup_withModule, if_pos rfl]

theorem lookup_withEntry_of_not (f : Filter) (h : ∀ l, ¬Names entry name l) :
    (f.withEntry entry).modules.lookup name = f.modules.lookup name := by
  rcases sets_or_follows entry with ⟨other, level, hsets⟩ | ⟨other, hfollows⟩
  · rw [withEntry_of_sets hsets]
    by_cases hothers : other = others
    · rw [if_pos hothers]
      rfl
    · by_cases hempty : other = []
      · rw [if_neg hothers, if_pos hempty]
      · have hne : name ≠ other := fun heq => h level (heq ▸ ⟨hempty, .inl hsets⟩)
        rw [if_neg hothers, if_neg hempty, lookup_withModule, if_neg hne]
  · rw [withEntry_of_follows hfollows]
    by_cases hempty : other = []
    · rw [if_pos hempty]
    · have hne : name ≠ other := fun heq => h .trace (heq ▸ ⟨hempty, .inr ⟨hfollows, rfl⟩⟩)
      rw [if_neg hempty, lookup_withModule, if_neg hne]

theorem fallback_withEntry_of_sets (f : Filter) (h : Sets entry others level) :
    (f.withEntry entry).fallback = level := by
  rw [withEntry_of_sets h, if_pos rfl]
  rfl

theorem fallback_withEntry_of_not (f : Filter) (h : ∀ l, ¬Sets entry others l) :
    (f.withEntry entry).fallback = f.fallback := by
  rcases sets_or_follows entry with ⟨other, level, hsets⟩ | ⟨other, hfollows⟩
  · have hne : other ≠ others := fun heq => h level (heq ▸ hsets)
    rw [withEntry_of_sets hsets, if_neg hne]
    split <;> rfl
  · rw [withEntry_of_follows hfollows]
    split <;> rfl

/-! ## The entry that counts -/

theorem lookup_isSaidIn (hname : name ≠ others) :
    IsSaidIn withEntry (fun f => f.modules.lookup name) some (Names · name) where
  set f _ _ h := lookup_withEntry_of_names f hname h
  stay f _ h := lookup_withEntry_of_not f h

theorem fallback_isSaidIn : IsSaidIn withEntry fallback id (Sets · others) where
  set f _ _ h := fallback_withEntry_of_sets f h
  stay f _ h := fallback_withEntry_of_not f h

end Log.Filter

/-! ## Configurations -/

namespace Log.Logger

open Log.Filter

variable {name : Bytes}

/-- A configured filter has the modules of the specification, and for the others at most the
configured level. -/
theorem configuredFilter_eq (level : Level) (spec : Bytes) : configuredFilter level spec =
    ⟨level.lower ((atLevel level).specify spec).fallback,
      ((atLevel level).specify spec).modules⟩ := by
  unfold configuredFilter
  by_cases hspec : spec = []
  · subst hspec
    simp [specify, Bytes.splitOn, withEntry, trimmed, Bytes.trim, Bytes.dropTrailing, atLevel,
      Level.lower]
  · rw [if_neg hspec]
    dsimp only [Level.lower]
    split <;> rfl

/-- What begins at a threshold, or elsewhere under a condition, begins at the threshold alone
just if the condition fails or the threshold is not above. -/
theorem begins_iff {begins : Level → Prop} {threshold other : Level} {p : Prop}
    (h : ∀ level, begins level ↔ threshold ≤ level ∨ ¬p ∧ other ≤ level) :
    (∀ level, begins level ↔ threshold ≤ level) ↔ p ∨ threshold ≤ other := by
  constructor
  · intro hexact
    by_cases hp : p
    · exact .inl hp
    · exact .inr ((hexact other).mp ((h other).mpr (.inr ⟨hp, Level.le_refl other⟩)))
  · intro hlow level
    rw [h]
    constructor
    · rintro (hlevel | ⟨hp, hother⟩)
      · exact hlevel
      · exact Level.le_trans (hlow.resolve_left hp) hother
    · exact .inl

variable {c : Config} {l : Logger} {h : Host}

theorem init_shouldLog_iff {level : Level} : (l.init c h).1.shouldLog level name = true ↔
    (configuredFilter c.level c.filterSpec).threshold name ≤ level := by
  rw [shouldLog_of_le (init_gate l c h name), allows_iff]
  rfl

/-- A module that is named has the level of the last entry that names it. -/
theorem threshold_of_named (hname : name ≠ others) {own : Level}
    (hlast : LastWord (Names · name) (Bytes.splitOn Byte.comma c.filterSpec) own) :
    (configuredFilter c.level c.filterSpec).threshold name = own := by
  apply threshold_of_some
  rw [configuredFilter_eq]
  exact (lookup_isSaidIn hname).foldl_lastWord _ hlast

/-- A module that is not named has the configured level, or that of the others if it is lower. -/
theorem threshold_of_unnamed (hname : name ≠ others)
    (hnone : Silent (Names · name) (Bytes.splitOn Byte.comma c.filterSpec)) :
    (configuredFilter c.level c.filterSpec).threshold name =
      c.level.lower ((atLevel c.level).specify c.filterSpec).fallback := by
  rw [configuredFilter_eq]
  apply threshold_of_none
  exact (lookup_isSaidIn hname).foldl_silent _ hnone

/-- Setting the log up gives each module the threshold that the specification and the level
of the configuration say, except that an entry for the others never raises theirs above the
configured level. So the thresholds are as said just for the modules that are named, and where
the threshold is not above the configured level. -/
theorem a_configuration_sets_the_thresholds_it_says_up_to_its_level (c : Config)
    (l : Logger) (h : Host) (hname : name ≠ others) :
    let entries := Bytes.splitOn Byte.comma c.filterSpec
    let started := (l.init c h).1
    ∃ threshold, Threshold entries c.level name threshold ∧
      (∀ level, started.shouldLog level name = true ↔
        threshold ≤ level ∨ ¬IsNamed entries name ∧ c.level ≤ level) ∧
      ((∀ level, started.shouldLog level name = true ↔ threshold ≤ level) ↔
        IsNamed entries name ∨ threshold ≤ c.level) := by
  intro entries started
  rcases lastWord_or_silent (Names · name) entries with ⟨own, hown⟩ | hnone
  · have hnamed : IsNamed entries name := by
      obtain ⟨before, entry, behind, hentries, hentry, -⟩ := hown
      exact ⟨entry, by simp [hentries], own, hentry⟩
    have hbegins (level : Level) : started.shouldLog level name = true ↔
        own ≤ level ∨ ¬IsNamed entries name ∧ c.level ≤ level := by
      rw [init_shouldLog_iff, threshold_of_named hname hown]
      simp [hnamed]
    exact ⟨own, .own hown, hbegins, begins_iff hbegins⟩
  · have hunnamed : ¬IsNamed entries name := fun ⟨entry, hentry, level, hlevel⟩ =>
      hnone entry hentry level hlevel
    have hbegins {threshold : Level}
        (hfallback : ((atLevel c.level).specify c.filterSpec).fallback = threshold)
        (level : Level) :
        started.shouldLog level name = true ↔
          threshold ≤ level ∨ ¬IsNamed entries name ∧ c.level ≤ level := by
      rw [init_shouldLog_iff, threshold_of_unnamed hname hnone, hfallback,
        Level.lower_le_iff, or_comm]
      simp [hunnamed]
    rcases lastWord_or_silent (Sets · others) entries with ⟨threshold, hlast⟩ | hunset
    · have hthreshold := hbegins (fallback_isSaidIn.foldl_lastWord _ hlast)
      exact ⟨threshold, .others hunnamed hlast, hthreshold, begins_iff hthreshold⟩
    · have hthreshold := hbegins (fallback_isSaidIn.foldl_silent _ hunset)
      exact ⟨c.level, .configured hunnamed hunset, hthreshold, begins_iff hthreshold⟩

/-- One module with a level below the configured one, and a higher level for the others. -/
theorem a_module_is_lowered_and_the_others_are_not_raised :
    let c : Config := ⟨.warn, utf8 "parser=debug, * = error", [], true, true⟩
    let h : Host := ⟨.emptyAt [], [], [], 0, false, none, none⟩
    let entries := Bytes.splitOn Byte.comma c.filterSpec
    let started := (Logger.initial.init c h).1
    (utf8 "lexer" ≠ others ∧ ∃ threshold, Threshold entries c.level (utf8 "lexer") threshold ∧
      (∀ level, started.shouldLog level (utf8 "lexer") = true ↔
        threshold ≤ level ∨ ¬IsNamed entries (utf8 "lexer") ∧ c.level ≤ level) ∧
      ((∀ level, started.shouldLog level (utf8 "lexer") = true ↔ threshold ≤ level) ↔
        IsNamed entries (utf8 "lexer") ∨ threshold ≤ c.level)) ∧
    started.shouldLog .debug (utf8 "parser") = true ∧
      started.shouldLog .info (utf8 "lexer") = false ∧
      started.shouldLog .warn (utf8 "lexer") = true := by
  intro c h entries started
  have hne : utf8 "lexer" ≠ others := by decide
  refine ⟨⟨hne, a_configuration_sets_the_thresholds_it_says_up_to_its_level c .initial h hne⟩, ?_⟩
  decide +kernel

/-- A specification that asks for errors only, from all modules, does not get its way where
warnings are configured. -/
theorem the_others_are_not_raised :
    let c : Config := ⟨.warn, utf8 "*=error", [], true, true⟩
    let h : Host := ⟨.emptyAt [], [], [], 0, false, none, none⟩
    Threshold (Bytes.splitOn Byte.comma c.filterSpec) c.level (utf8 "lexer") .error ∧
      ¬Level.error ≤ Level.warn ∧
        (Logger.initial.init c h).1.shouldLog .warn (utf8 "lexer") = true := by
  intro c h
  have hentries : Bytes.splitOn Byte.comma c.filterSpec = [utf8 "*=error"] := by decide +kernel
  have hunnamed : ¬IsNamed [utf8 "*=error"] (utf8 "lexer") := by
    rintro ⟨entry, hentry, level, hlevel⟩
    rw [List.mem_singleton] at hentry
    subst hentry
    have hlookup := lookup_withEntry_of_names (atLevel .warn) (by decide) hlevel
    have hnone :
        ((atLevel .warn).withEntry (utf8 "*=error")).modules.lookup (utf8 "lexer") = none := by
      decide +kernel
    rw [hnone] at hlookup
    cases hlookup
  have hsets : Sets (utf8 "*=error") others .error :=
    ⟨utf8 "*", utf8 "error", utf8 "error", by decide +kernel, by decide +kernel,
      ⟨⟨0, 0, by decide +kernel⟩, by decide +kernel, by decide +kernel⟩,
      ⟨⟨0, 0, by decide +kernel⟩, by decide +kernel, by decide +kernel⟩, by decide +kernel⟩
  refine ⟨?_, by decide, by decide +kernel⟩
  rw [hentries]
  exact .others hunnamed ⟨[], _, [], rfl, hsets, List.forall_mem_nil _⟩

end Log.Logger

end ShapeTraits
