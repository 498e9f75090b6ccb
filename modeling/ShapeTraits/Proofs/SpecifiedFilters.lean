-- What a specification makes of any filter: the thresholds it sets, the spaces and the empty
-- entries that it may have without a meaning, and the lowest level that any module has then.
import Mathlib.Data.Fintype.EquivFin
import Mathlib.Data.Finset.Card
import ShapeTraits.Proofs.FilterSpecs

namespace ShapeTraits.Log

/-! ## Names of levels -/

namespace Level

/-- What a text says as a level: the level whose name it is in either case, and `info` if it
is no name. -/
inductive IsSaid (text : Bytes) : Level → Prop
  | known {level : Level} (isName : text.map Byte.toUpper = level.text) : IsSaid text level
  | unknown (noName : ∀ level : Level, text.map Byte.toUpper ≠ level.text) : IsSaid text .info

theorem text_injective : Function.Injective text := by
  intro a b h
  revert h
  cases a <;> cases b <;> decide

theorem ofName_eq_iff {name : Bytes} {level : Level} : ofName name = level ↔ IsSaid name level := by
  unfold ofName
  cases hfind : all.find? (fun level => level.text == name.map Byte.toUpper) with
  | some found =>
    have hname : found.text = name.map Byte.toUpper := by simpa using List.find?_some hfind
    rw [Option.getD_some]
    constructor
    · rintro rfl
      exact .known hname.symm
    · intro h
      cases h with
      | known isName => exact text_injective (hname.trans isName)
      | unknown noName => exact absurd hname.symm (noName found)
  | none =>
    have hnone (level : Level) : name.map Byte.toUpper ≠ level.text := by
      have hall : level ∈ all := by cases level <;> decide
      have hlevel := List.find?_eq_none.mp hfind level hall
      exact fun h => hlevel (beq_iff_eq.mpr h.symm)
    rw [Option.getD_none]
    constructor
    · rintro rfl
      exact .unknown hnone
    · intro h
      cases h with
      | known isName => exact absurd isName (hnone level)
      | unknown => rfl

end Level

namespace Filter

variable {f g : Filter} {entry wider name spec : Bytes} {entries more : List Bytes} {level : Level}

/-! ## Thresholds -/

/-- The entries of a specification. -/
def entriesOf (spec : Bytes) : List Bytes := Bytes.splitOn Byte.comma spec

theorem exists_threshold (entries : List Bytes) (configured : Level) (name : Bytes) :
    ∃ threshold, Threshold entries configured name threshold := by
  rcases lastWord_or_silent (Names · name) entries with ⟨own, hown⟩ | hunnamed
  · exact ⟨own, .own hown⟩
  have hunnamed : ¬IsNamed entries name := fun ⟨entry, hentry, level, hlevel⟩ =>
    hunnamed entry hentry level hlevel
  rcases lastWord_or_silent (Sets · others) entries with ⟨level, hlast⟩ | hunset
  · exact ⟨level, .others hunnamed hlast⟩
  · exact ⟨configured, .configured hunnamed hunset⟩

/-- A module has no level of its own unless some entry names it. -/
theorem threshold_specify_of_unnamed (f : Filter) (hname : name ≠ others)
    (h : ¬IsNamed (entriesOf spec) name) :
    (f.specify spec).threshold name = (f.specify spec).fallback := by
  apply threshold_of_none
  refine (lookup_isSaidIn hname).foldl_silent _ fun entry hentry level hlevel => ?_
  exact h ⟨entry, hentry, level, hlevel⟩

theorem threshold_specify (hname : name ≠ others) {threshold : Level}
    (h : Threshold (entriesOf spec) f.fallback name threshold) :
    (f.specify spec).threshold name = threshold := by
  cases h with
  | own last => exact threshold_of_some ((lookup_isSaidIn hname).foldl_lastWord _ last)
  | others unnamed last =>
    rw [threshold_specify_of_unnamed f hname unnamed]
    exact fallback_isSaidIn.foldl_lastWord _ last
  | configured unnamed unset =>
    rw [threshold_specify_of_unnamed f hname unnamed]
    exact fallback_isSaidIn.foldl_silent _ unset

theorem threshold_iff (f : Filter) (spec : Bytes) (hname : name ≠ others) (threshold : Level) :
    Threshold (entriesOf spec) f.fallback name threshold ↔
      threshold = (f.specify spec).threshold name := by
  refine ⟨fun h => (threshold_specify hname h).symm, ?_⟩
  rintro rfl
  obtain ⟨threshold, h⟩ := exists_threshold (entriesOf spec) f.fallback name
  rwa [threshold_specify hname h]

/-! ## Spaces and empty entries -/

/-- An entry with more spaces around it, or around the name and the level in it. -/
inductive Widened : Bytes → Bytes → Prop
  | whole (entry : Bytes) (m n : Nat) : Widened entry (spaces m ++ entry ++ spaces n)
  | parts {left right : Bytes} (isName : Byte.equals ∉ left) (k l m n : Nat) :
      Widened (left ++ Byte.equals :: right)
        (spaces k ++ left ++ spaces l ++ Byte.equals :: (spaces m ++ right ++ spaces n))

/-- Entries with more spaces in them and more empty ones between them. -/
inductive Loosened : List Bytes → List Bytes → Prop
  | nil : Loosened [] []
  | entry {entry wider : Bytes} {entries more : List Bytes} (widened : Widened entry wider)
      (rest : Loosened entries more) : Loosened (entry :: entries) (wider :: more)
  | empty {entries more : List Bytes} (n : Nat) (rest : Loosened entries more) :
      Loosened entries (spaces n :: more)

theorem Pads.around_both {text core : Bytes} (h : Pads text core) (m n : Nat) :
    Pads (spaces m ++ text ++ spaces n) core :=
  (h.before m).behind n

theorem withEntry_widened (f : Filter) (h : Widened entry wider) :
    f.withEntry wider = f.withEntry entry := by
  cases h with
  | whole entry m n =>
    have htrimmed := ((pads_trimmed entry).around_both m n).trimmed_eq
    unfold withEntry
    rw [htrimmed]
  | @parts left right isName k l m n =>
    have hsets :
        Sets (left ++ Byte.equals :: right) (trimmed left) (Level.ofName (trimmed right)) :=
      ⟨left, right, _, rfl, isName, pads_trimmed left, pads_trimmed right, rfl⟩
    have hequals : Byte.equals ∉ spaces k ++ left ++ spaces l := by
      have hspaces (n : Nat) : Byte.equals ∉ spaces n := fun h => by
        have hspace := List.eq_of_mem_replicate h
        cases hspace
      simp [isName, hspaces]
    have hwider :
        Sets (spaces k ++ left ++ spaces l ++ Byte.equals :: (spaces m ++ right ++ spaces n))
          (trimmed left) (Level.ofName (trimmed right)) :=
      ⟨_, _, _, rfl, hequals, (pads_trimmed left).around_both k l,
        (pads_trimmed right).around_both m n, rfl⟩
    rw [withEntry_of_sets hsets, withEntry_of_sets hwider]

theorem withEntry_spaces (f : Filter) (n : Nat) : f.withEntry (spaces n) = f := by
  have hpads : Pads (spaces n) [] := ⟨⟨n, 0, by simp [spaces]⟩, by simp, by simp⟩
  unfold withEntry
  rw [hpads.trimmed_eq, if_pos rfl]

theorem foldl_loosened (f : Filter) (h : Loosened entries more) :
    more.foldl withEntry f = entries.foldl withEntry f := by
  induction h generalizing f with
  | nil => rfl
  | entry widened rest ih => rw [List.foldl_cons, List.foldl_cons, withEntry_widened f widened, ih]
  | empty n rest ih => rw [List.foldl_cons, withEntry_spaces, ih]

/-! ## The same specification again -/

/-- What an entry makes of the levels of single modules does not depend on the others. -/
theorem modules_withEntry_congr (h : f.modules = g.modules) (entry : Bytes) :
    (f.withEntry entry).modules = (g.withEntry entry).modules := by
  rcases sets_or_follows entry with ⟨name, level, hsets⟩ | ⟨name, hfollows⟩
  · rw [withEntry_of_sets hsets, withEntry_of_sets hsets]
    split_ifs <;> simp [withFallback, withModule, h]
  · rw [withEntry_of_follows hfollows, withEntry_of_follows hfollows]
    split_ifs <;> simp [withModule, h]

theorem modules_foldl_congr (h : f.modules = g.modules) (entries : List Bytes) :
    (entries.foldl withEntry f).modules = (entries.foldl withEntry g).modules := by
  induction entries generalizing f g with
  | nil => exact h
  | cons entry entries ih => exact ih (modules_withEntry_congr h entry)

theorem specify_specify (f : Filter) (spec : Bytes) :
    (f.specify spec).specify spec = f.specify spec := by
  have hmodules : ((f.specify spec).specify spec).modules = (f.specify spec).modules :=
    modules_foldl_congr (f := { f.specify spec with modules := [] })
      (g := { f with modules := [] }) rfl
      (entriesOf spec)
  have hfallback : ((f.specify spec).specify spec).fallback = (f.specify spec).fallback := by
    rcases lastWord_or_silent (Sets · others) (entriesOf spec) with ⟨level, hlast⟩ | hunset
    · exact (fallback_isSaidIn.foldl_lastWord _ hlast).trans
        (fallback_isSaidIn.foldl_lastWord _ hlast).symm
    · exact fallback_isSaidIn.foldl_silent _ hunset
  generalize (f.specify spec).specify spec = again at *
  generalize f.specify spec = once at *
  cases again
  cases once
  exact congr (congrArg Filter.mk hfallback) hmodules

/-! ## The lowest level -/

/-- Every module that is listed is listed once: looking it up gives its level. -/
def IsTable (f : Filter) : Prop := ∀ entry ∈ f.modules, f.modules.lookup entry.1 = some entry.2

theorem IsTable.withModule (h : f.IsTable) (name : Bytes) (level : Level) :
    (f.withModule name level).IsTable := by
  intro entry hentry
  rw [lookup_withModule]
  rcases List.mem_cons.mp hentry with rfl | hentry
  · exact if_pos rfl
  · obtain ⟨hmem, hne⟩ := List.mem_filter.mp hentry
    rw [if_neg (bne_iff_ne.mp hne)]
    exact h entry hmem

theorem IsTable.withEntry (h : f.IsTable) (entry : Bytes) : (f.withEntry entry).IsTable := by
  rcases sets_or_follows entry with ⟨name, level, hsets⟩ | ⟨name, hfollows⟩
  · rw [withEntry_of_sets hsets]
    split_ifs
    · exact h
    · exact h
    · exact h.withModule name level
  · rw [withEntry_of_follows hfollows]
    split_ifs
    · exact h
    · exact h.withModule name .trace

theorem isTable_specify (f : Filter) (spec : Bytes) : (f.specify spec).IsTable := by
  have hfold (entries : List Bytes) (f : Filter) (h : f.IsTable) :
      (entries.foldl Filter.withEntry f).IsTable := by
    induction entries generalizing f with
    | nil => exact h
    | cons entry entries ih => exact ih _ (h.withEntry entry)
  exact hfold (entriesOf spec) _ (List.forall_mem_nil _)

theorem lowest_le_iff :
    f.lowest ≤ level ↔ f.fallback ≤ level ∨ ∃ entry ∈ f.modules, entry.2 ≤ level := by
  unfold lowest
  induction f.modules with
  | nil => simp
  | cons entry entries ih => simp [Level.lower_le_iff, ih, or_left_comm]

/-- Some name is not listed. -/
theorem exists_unlisted (f : Filter) : ∃ name, f.modules.lookup name = none := by
  obtain ⟨name, hname⟩ := Infinite.exists_notMem_finset (f.modules.map Prod.fst).toFinset
  rw [List.mem_toFinset, List.mem_map] at hname
  refine ⟨name, List.lookup_eq_none_iff.mpr fun entry hentry => ?_⟩
  exact bne_iff_ne.mpr fun heq => hname ⟨entry, hentry, heq.symm⟩

/-- The lowest level is the lowest one at which messages of some module count. -/
theorem IsTable.lowest_le_iff (h : f.IsTable) :
    f.lowest ≤ level ↔ ∃ name, f.allows level name = true := by
  constructor
  · intro hlowest
    rcases Filter.lowest_le_iff.mp hlowest with hfallback | ⟨entry, hentry, hlevel⟩
    · obtain ⟨name, hname⟩ := f.exists_unlisted
      exact ⟨name, allows_iff.mpr ((threshold_of_none hname).symm ▸ hfallback)⟩
    · exact ⟨entry.1, allows_iff.mpr ((threshold_of_some (h entry hentry)).symm ▸ hlevel)⟩
  · rintro ⟨name, hname⟩
    exact Level.le_trans (f.lowest_le_threshold name) (allows_iff.mp hname)

/-! ## The law -/

/-- A specification gives each module the threshold that its entries say, whatever was said of
single modules before. More spaces and empty entries, and saying it once more, change nothing,
and the lowest level is the lowest one at which messages of any module count. -/
theorem a_specification_sets_the_thresholds_it_says (f : Filter) (spec : Bytes) :
    let specified := f.specify spec
    (∀ name ≠ others, ∃ threshold,
      (∀ said, Threshold (entriesOf spec) f.fallback name said ↔ said = threshold) ∧
        ∀ level, specified.allows level name = true ↔ threshold ≤ level) ∧
    (∀ text level, Level.ofName text = level ↔ Level.IsSaid text level) ∧
    (∀ modules, Filter.specify ⟨f.fallback, modules⟩ spec = specified) ∧
    (∀ looser, Loosened (entriesOf spec) (entriesOf looser) → f.specify looser = specified) ∧
    specified.specify spec = specified ∧
    ∀ level, specified.lowest ≤ level ↔ ∃ name, specified.allows level name = true := by
  intro specified
  refine ⟨fun name hname => ?_, fun text level => Level.ofName_eq_iff, fun modules => rfl,
    fun looser h => foldl_loosened _ h, specify_specify f spec, fun level =>
      (isTable_specify f spec).lowest_le_iff⟩
  exact ⟨specified.threshold name, threshold_iff f spec hname, fun level => allows_iff⟩

/-- Spaces around a name and a level and an empty entry do not matter, and what was said of the
parser before is forgotten. -/
theorem a_looser_specification_sets_the_same_thresholds :
    let f : Filter := ⟨.info, [(utf8 "parser", .trace)]⟩
    let spec := utf8 "lexer=Off,*=warn"
    let looser := utf8 " lexer = Off ,,*=warn"
    Loosened (entriesOf spec) (entriesOf looser) ∧ f.specify looser = f.specify spec ∧
      f.specify spec = ⟨.warn, [(utf8 "lexer", .off)]⟩ ∧ utf8 "parser" ≠ others ∧
      ∃ threshold,
        (∀ said, Threshold (entriesOf spec) .info (utf8 "parser") said ↔ said = threshold) ∧
        ∀ level, (f.specify spec).allows level (utf8 "parser") = true ↔ threshold ≤ level := by
  intro f spec looser
  have hlexer : Widened (utf8 "lexer=Off") (utf8 " lexer = Off ") := by
    have hwidened := @Widened.parts (utf8 "lexer") (utf8 "Off") (by decide) 1 1 1 1
    have hentry : utf8 "lexer" ++ Byte.equals :: utf8 "Off" = utf8 "lexer=Off" := by decide +kernel
    have hwider : spaces 1 ++ utf8 "lexer" ++ spaces 1 ++
        Byte.equals :: (spaces 1 ++ utf8 "Off" ++ spaces 1) =
        utf8 " lexer = Off " := by decide +kernel
    rwa [hentry, hwider] at hwidened
  have hothers : Widened (utf8 "*=warn") (utf8 "*=warn") := by
    have hwidened := Widened.whole (utf8 "*=warn") 0 0
    simpa [spaces] using hwidened
  have hloosened : Loosened (entriesOf spec) (entriesOf looser) := by
    have hentries : entriesOf spec = [utf8 "lexer=Off", utf8 "*=warn"] := by decide +kernel
    have hlooser : entriesOf looser = [utf8 " lexer = Off ", spaces 0, utf8 "*=warn"] := by
      decide +kernel
    rw [hentries, hlooser]
    exact .entry hlexer (.empty 0 (.entry hothers .nil))
  have hname : utf8 "parser" ≠ others := by decide
  obtain ⟨hthreshold, -, -, hsame, -, -⟩ := a_specification_sets_the_thresholds_it_says f spec
  exact ⟨hloosened, hsame looser hloosened, by decide +kernel, hname,
    hthreshold (utf8 "parser") hname⟩

end Filter

end ShapeTraits.Log
