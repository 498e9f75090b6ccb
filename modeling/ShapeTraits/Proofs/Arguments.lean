-- What each argument asks of the log, said without a reader of arguments, and what all of them
-- and the setting of the environment come to; and what each argument sets in the options of the
-- tool, or why it is refused. The log and the tool share the arguments: each of them sees its
-- own and none of the other's, in the order in which they are given.
import Mathlib.Order.Bounds.Basic
import ShapeTraits.Proofs.LastWord
import ShapeTraits.Proofs.QuietRuns

namespace ShapeTraits

/-! ## Starts of texts -/

namespace Bytes

theorem after_append (start rest : Bytes) : after? start (start ++ rest) = some rest := by
  induction start with
  | nil => rfl
  | cons b start ih => rw [List.cons_append, after?, if_pos rfl, ih]

theorem after_eq_some {start text rest : Bytes} :
    after? start text = some rest ↔ text = start ++ rest :=
  ⟨eq_append_of_after, fun h => h ▸ after_append start rest⟩

end Bytes

namespace Log

/-! ## What an argument asks -/

/-- What an argument asks of the log. -/
inductive Asks : Bytes → Request → Prop
  | level (name : Bytes) : Asks (utf8 "--log-level=" ++ name) (.level (Level.ofName name))
  | quiet : Asks (utf8 "-q") (.level .error)
  | quietly : Asks (utf8 "--quiet") (.level .error)
  | filter (spec : Bytes) : Asks (utf8 "--log-filter=" ++ spec) (.filter spec)
  | file (path : Bytes) : Asks (utf8 "--log-file=" ++ path) (.file path)
  | verbose : Asks (utf8 "--verbose") (.verbosity 1)
  | letters (more : Nat) :
    Asks (Byte.minus :: List.replicate (more + 1) 0x76) (.verbosity (more + 1))

variable {argument : Bytes} {request other : Request}

theorem letters_eq_some {count : Nat} : Request.letters? argument = some count ↔
    ∃ more, count = more + 1 ∧ argument = Byte.minus :: List.replicate (more + 1) 0x76 := by
  constructor
  · intro h
    unfold Request.letters? at h
    split at h
    · next dash v rest =>
      split at h
      · next hall =>
        obtain ⟨rfl, hletters⟩ := hall
        have hsame : v :: rest = List.replicate (v :: rest).length 0x76 :=
          List.eq_replicate_of_mem fun b hb => beq_iff_eq.mp (List.all_eq_true.mp hletters b hb)
        exact ⟨rest.length, (Option.some.inj h).symm, congrArg (Byte.minus :: ·) hsame⟩
      · cases h
    · cases h
  · rintro ⟨more, rfl, rfl⟩
    simp [Request.letters?, List.replicate_succ]

/-- The reader of arguments finds out just what they ask. -/
theorem ofArgument_eq_some :
    Request.ofArgument? argument = some request ↔ Asks argument request := by
  constructor
  · intro h
    unfold Request.ofArgument? at h
    split at h
    · next name hlevel =>
      cases h
      rw [Bytes.after_eq_some.mp hlevel]
      exact .level name
    split at h
    · next spec hfilter =>
      cases h
      rw [Bytes.after_eq_some.mp hfilter]
      exact .filter spec
    split at h
    · next path hfile =>
      cases h
      rw [Bytes.after_eq_some.mp hfile]
      exact .file path
    split at h
    · next hquiet =>
      cases h
      rcases hquiet with rfl | rfl
      · exact .quiet
      · exact .quietly
    split at h
    · next hverbose =>
      cases h
      rw [hverbose]
      exact .verbose
    · obtain ⟨count, hcount, rfl⟩ := Option.map_eq_some_iff.mp h
      obtain ⟨more, rfl, rfl⟩ := letters_eq_some.mp hcount
      exact .letters more
  · intro h
    cases h with
    | level name => rw [Request.ofArgument?, Bytes.after_append]
    | quiet => rfl
    | quietly => rfl
    | filter spec =>
      have hlevel : Bytes.after? (utf8 "--log-level=") (utf8 "--log-filter=" ++ spec) = none := rfl
      rw [Request.ofArgument?, hlevel, Bytes.after_append]
    | file path =>
      have hlevel : Bytes.after? (utf8 "--log-level=") (utf8 "--log-file=" ++ path) = none := rfl
      have hfilter : Bytes.after? (utf8 "--log-filter=") (utf8 "--log-file=" ++ path) = none := rfl
      rw [Request.ofArgument?, hlevel, hfilter, Bytes.after_append]
    | verbose => rfl
    | letters more =>
      -- No other argument has a letter v as its second byte.
      have hne {text : Bytes} (h : text[1]? ≠ some 0x76) :
          Byte.minus :: List.replicate (more + 1) 0x76 ≠ text := by
        rintro rfl
        exact h rfl
      have hstart {start : Bytes} (h : start[1]? = some Byte.minus) :
          Bytes.after? start (Byte.minus :: List.replicate (more + 1) 0x76) = none := by
        cases hafter : Bytes.after? start (Byte.minus :: List.replicate (more + 1) 0x76) with
        | none => rfl
        | some rest =>
          obtain ⟨hlength, -⟩ := List.getElem?_eq_some_iff.mp h
          refine absurd (Bytes.eq_append_of_after hafter) (hne ?_)
          rw [List.getElem?_append_left hlength, h]
          decide
      rw [Request.ofArgument?, hstart rfl, hstart rfl, hstart rfl,
        if_neg (not_or.mpr ⟨hne (by decide), hne (by decide)⟩), if_neg (hne (by decide)),
        letters_eq_some.mpr ⟨more, rfl, rfl⟩]
      rfl

theorem Asks.unique (h : Asks argument request) (g : Asks argument other) : request = other :=
  Option.some.inj ((ofArgument_eq_some.mpr h).symm.trans (ofArgument_eq_some.mpr g))

/-- An argument is the log's by its look just if it asks something of the log. -/
theorem isLogArgument_iff : isLogArgument argument = true ↔ ∃ request, Asks argument request := by
  simp only [isLogArgument, Bool.or_eq_true, List.contains_iff_mem, List.any_eq_true,
    List.isPrefixOf_iff_prefix, Option.isSome_iff_exists]
  constructor
  · rintro ((hfixed | ⟨start, hstart, rest, rfl⟩) | ⟨count, hcount⟩)
    · simp only [fixedArguments, List.mem_cons, List.not_mem_nil, or_false] at hfixed
      rcases hfixed with rfl | rfl | rfl
      · exact ⟨_, .quiet⟩
      · exact ⟨_, .quietly⟩
      · exact ⟨_, .verbose⟩
    · simp only [valueStarts, List.mem_cons, List.not_mem_nil, or_false] at hstart
      rcases hstart with rfl | rfl | rfl
      · exact ⟨_, .level rest⟩
      · exact ⟨_, .filter rest⟩
      · exact ⟨_, .file rest⟩
    · obtain ⟨more, rfl, rfl⟩ := letters_eq_some.mp hcount
      exact ⟨_, .letters more⟩
  · rintro ⟨request, h⟩
    cases h with
    | level name => exact .inl (.inr ⟨_, by simp [valueStarts], List.prefix_append _ name⟩)
    | filter spec => exact .inl (.inr ⟨_, by simp [valueStarts], List.prefix_append _ spec⟩)
    | file path => exact .inl (.inr ⟨_, by simp [valueStarts], List.prefix_append _ path⟩)
    | quiet | quietly | verbose => exact .inl (.inl (by simp [fixedArguments]))
    | letters more => exact .inr ⟨_, letters_eq_some.mpr ⟨more, rfl, rfl⟩⟩

/-- So the two ways to tell an argument of the log agree. -/
theorem isLogArgument_eq (argument : Bytes) :
    isLogArgument argument = (Request.ofArgument? argument).isSome := by
  rw [Bool.eq_iff_iff, isLogArgument_iff, Option.isSome_iff_exists]
  exact exists_congr fun request => ofArgument_eq_some.symm

/-! ## What some arguments ask together -/

section Forms

variable {α : Type} {form : α → Request} {arguments : List Bytes} {value : α}

/-- Some argument asks for something of a form. -/
def AsksFor (form : α → Request) (arguments : List Bytes) : Prop :=
  ∃ argument ∈ arguments, ∃ value, Asks argument (form value)

/-- The last of the arguments that ask for something of a form asks for this. -/
def IsLast (form : α → Request) (arguments : List Bytes) (value : α) : Prop :=
  LastWord (fun argument value => Asks argument (form value)) arguments value

theorem not_asksFor_iff :
    ¬AsksFor form arguments ↔
      Silent (fun argument value => Asks argument (form value)) arguments := by
  simp [AsksFor, Silent]

/-- Either some argument is the last one to ask, or none asks. -/
theorem last_or_none (form : α → Request) (arguments : List Bytes) :
    (∃ value, IsLast form arguments value) ∨ ¬AsksFor form arguments := by
  rw [not_asksFor_iff]
  exact lastWord_or_silent _ arguments

namespace Wishes

/-- What is asked for with one more argument, which may be none of the log's. -/
def heed (w : Wishes) (argument : Bytes) : Wishes := (Request.ofArgument? argument).elim w w.add

theorem heed_of_asks (w : Wishes) (h : Asks argument request) :
    w.heed argument = w.add request := by
  rw [heed, ofArgument_eq_some.mpr h, Option.elim_some]

theorem heed_of_not (w : Wishes) (h : ∀ request, ¬Asks argument request) : w.heed argument = w := by
  have hnone : Request.ofArgument? argument = Option.none :=
    Option.eq_none_iff_forall_ne_some.mpr fun request hsome =>
      h request (ofArgument_eq_some.mp hsome)
  rw [heed, hnone, Option.elim_none]

theorem ofArguments_eq (arguments : List Bytes) :
    ofArguments arguments = arguments.foldl heed none := by
  rw [ofArguments, List.foldl_filterMap]
  congr
  funext w argument
  unfold heed
  cases Request.ofArgument? argument <;> rfl

theorem ofArguments_snoc (arguments : List Bytes) (argument : Bytes) :
    ofArguments (arguments ++ [argument]) = (ofArguments arguments).heed argument := by
  rw [ofArguments_eq, ofArguments_eq, List.foldl_append, List.foldl_cons, List.foldl_nil]

/-- What the requests of one form set and no others change is what the arguments say. -/
theorem isSaidIn_heed {view : Wishes → Option α}
    (set : ∀ (w : Wishes) value, view (w.add (form value)) = some value)
    (stay : ∀ (w : Wishes) request, (∀ value, request ≠ form value) →
      view (w.add request) = view w) :
    IsSaidIn heed view some fun argument value => Asks argument (form value) where
  set w argument value h := by rw [heed_of_asks w h, set]
  stay w argument hnot := by
    by_cases hasks : ∃ request, Asks argument request
    · obtain ⟨request, hrequest⟩ := hasks
      rw [heed_of_asks w hrequest]
      exact stay w request fun value heq => hnot value (heq ▸ hrequest)
    · rw [heed_of_not w (not_exists.mp hasks)]

theorem level_isSaidIn :
    IsSaidIn heed level some fun argument level => Asks argument (.level level) := by
  refine isSaidIn_heed (fun _ _ => rfl) fun w request h => ?_
  cases request with
  | level value => exact absurd rfl (h value)
  | filter | file | verbosity => rfl

theorem filter_isSaidIn :
    IsSaidIn heed filter some fun argument spec => Asks argument (.filter spec) := by
  refine isSaidIn_heed (fun _ _ => rfl) fun w request h => ?_
  cases request with
  | filter spec => exact absurd rfl (h spec)
  | level | file | verbosity => rfl

theorem view_of_last {view : Wishes → Option α}
    (h : IsSaidIn heed view some fun argument value => Asks argument (form value))
    (hlast : IsLast form arguments value) : view (ofArguments arguments) = some value := by
  rw [ofArguments_eq]
  exact h.foldl_lastWord none hlast

theorem view_of_none {view : Wishes → Option α}
    (h : IsSaidIn heed view some fun argument value => Asks argument (form value))
    (hstart : view none = Option.none) (hnone : ¬AsksFor form arguments) :
    view (ofArguments arguments) = Option.none := by
  rw [ofArguments_eq, h.foldl_silent none (not_asksFor_iff.mp hnone), hstart]

end Wishes

end Forms

/-! ## Verbosity -/

/-- The verbosities that some arguments ask for. -/
def verbosities (arguments : List Bytes) : Set Nat :=
  {count | ∃ a ∈ arguments, Asks a (.verbosity count)}

variable {arguments : List Bytes} {setting : Option Bytes} {level : Level} {spec : Bytes}
    {count : Nat}

theorem Asks.verbosity_pos (h : Asks argument (.verbosity count)) : 0 < count := by
  cases h with
  | verbose => exact Nat.one_pos
  | letters more => exact Nat.succ_pos more

theorem verbosities_snoc (arguments : List Bytes) (argument : Bytes) :
    verbosities (arguments ++ [argument]) =
    verbosities arguments ∪ {count | Asks argument (.verbosity count)} := by
  ext count
  simp [verbosities, or_and_right, exists_or]

/-- Without any verbosity it is zero, and so it is always the greatest of them all and zero. -/
theorem isGreatest_verbosity (arguments : List Bytes) :
    IsGreatest (insert 0 (verbosities arguments)) (Wishes.ofArguments arguments).verbosity := by
  induction arguments using List.reverseRecOn with
  | nil => simp [verbosities, Wishes.ofArguments, Wishes.none]
  | append_singleton arguments argument ih =>
    rw [verbosities_snoc, ← Set.insert_union]
    by_cases hasks : ∃ request, Asks argument request
    · obtain ⟨request, hrequest⟩ := hasks
      rw [Wishes.ofArguments_snoc, Wishes.heed_of_asks _ hrequest]
      have hother (h : ∀ count, request ≠ .verbosity count) :
          {count | Asks argument (.verbosity count)} = ∅ :=
        Set.eq_empty_of_forall_notMem fun count hcount => h count (hrequest.unique hcount)
      cases request with
      | verbosity count =>
        have hone : {count | Asks argument (.verbosity count)} = {count} :=
          Set.ext fun other =>
            ⟨fun h => Request.verbosity.inj (h.unique hrequest), fun h => h ▸ hrequest⟩
        rw [hone]
        exact ih.union isGreatest_singleton
      | level | filter | file =>
        rw [hother (by simp), Set.union_empty]
        exact ih
    · rw [Wishes.ofArguments_snoc, Wishes.heed_of_not _ (not_exists.mp hasks),
        Set.eq_empty_of_forall_notMem (s := {count | Asks argument (.verbosity count)})
          fun count hcount => hasks ⟨_, hcount⟩, Set.union_empty]
      exact ih

theorem verbosity_of_none (h : ¬AsksFor .verbosity arguments) :
    (Wishes.ofArguments arguments).verbosity = 0 := by
  rcases (isGreatest_verbosity arguments).1 with hzero | ⟨argument, hmem, hasks⟩
  · exact hzero
  · exact absurd ⟨argument, hmem, _, hasks⟩ h

theorem verbosity_of_asks (h : AsksFor .verbosity arguments) :
    0 < (Wishes.ofArguments arguments).verbosity ∧
      IsGreatest (verbosities arguments) (Wishes.ofArguments arguments).verbosity := by
  obtain ⟨hmem, hupper⟩ := isGreatest_verbosity arguments
  obtain ⟨argument, hargument, count, hasks⟩ := h
  have hpos := Nat.lt_of_lt_of_le hasks.verbosity_pos (hupper (.inr ⟨argument, hargument, hasks⟩))
  exact ⟨hpos, hmem.resolve_left (Nat.ne_of_gt hpos), fun count hcount => hupper (.inr hcount)⟩

/-! ## Where the settings come from -/

/-- The level of a verbosity. -/
inductive IsLevelOf : Nat → Level → Prop
  | one : IsLevelOf 1 .info
  | two : IsLevelOf 2 .debug
  | more {count : Nat} (h : 3 ≤ count) : IsLevelOf count .trace

/-- A setting of the environment that is a specification of a filter, and not a level. -/
def IsSpec (text : Bytes) : Prop := Byte.equals ∈ text ∨ Byte.comma ∈ text

/-- Where the level of the log comes from: the last argument that asks for one, else the
greatest verbosity, else the setting of the environment if no filter is asked for and it is no
specification itself, and else it is that of warnings. -/
inductive LevelFrom (arguments : List Bytes) (setting : Option Bytes) : Level → Prop
  | asked {level : Level} (last : IsLast .level arguments level) : LevelFrom arguments setting level
  | verbosity {count : Nat} {level : Level} (unasked : ¬AsksFor .level arguments)
      (greatest : IsGreatest (verbosities arguments) count) (means : IsLevelOf count level) :
      LevelFrom arguments setting level
  | setting {text : Bytes} (unasked : ¬AsksFor .level arguments)
      (brief : ¬AsksFor .verbosity arguments)
      (unfiltered : ¬AsksFor .filter arguments) (isSet : setting = some text) (isSome : text ≠ [])
      (isLevel : ¬IsSpec text) : LevelFrom arguments setting (Level.ofName text)
  | standard (unasked : ¬AsksFor .level arguments) (brief : ¬AsksFor .verbosity arguments)
      (unset : AsksFor .filter arguments ∨ ∀ text, setting = some text → text = [] ∨ IsSpec text) :
      LevelFrom arguments setting .warn

/-- Where the specification of the filter comes from: the last argument that asks for one,
else the setting of the environment if nothing else is asked for and it is one, and else it is
empty. -/
inductive SpecFrom (arguments : List Bytes) (setting : Option Bytes) : Bytes → Prop
  | asked {spec : Bytes} (last : IsLast .filter arguments spec) : SpecFrom arguments setting spec
  | setting {text : Bytes} (unasked : ¬AsksFor .level arguments)
      (brief : ¬AsksFor .verbosity arguments) (unfiltered : ¬AsksFor .filter arguments)
      (isSet : setting = some text) (isSpec : IsSpec text) : SpecFrom arguments setting text
  | none (unfiltered : ¬AsksFor .filter arguments)
      (unset : AsksFor .level arguments ∨ AsksFor .verbosity arguments ∨
        ∀ text, setting = some text → ¬IsSpec text) : SpecFrom arguments setting []

theorem isSpec_iff {text : Bytes} :
    (text.any fun b => b == Byte.equals || b == Byte.comma) = true ↔ IsSpec text := by
  simp [IsSpec, List.any_eq_true, and_or_left, exists_or]

theorem levelOfVerbosity_eq (h : IsLevelOf count level) :
    Wishes.levelOfVerbosity count = level := by
  cases h with
  | one | two => rfl
  | more h => exact Wishes.levelOfVerbosity.eq_3 _ (by omega) (by omega)

theorem exists_isLevelOf (h : 0 < count) : ∃ level, IsLevelOf count level := by
  rcases (by omega : count = 1 ∨ count = 2 ∨ 3 ≤ count) with rfl | rfl | hmore
  · exact ⟨_, .one⟩
  · exact ⟨_, .two⟩
  · exact ⟨_, .more hmore⟩

theorem exists_levelFrom (arguments : List Bytes) (setting : Option Bytes) :
    ∃ level, LevelFrom arguments setting level := by
  rcases last_or_none .level arguments with ⟨level, hlast⟩ | hunasked
  · exact ⟨level, .asked hlast⟩
  by_cases hbrief : AsksFor .verbosity arguments
  · obtain ⟨hpos, hgreatest⟩ := verbosity_of_asks hbrief
    obtain ⟨level, hlevel⟩ := exists_isLevelOf hpos
    exact ⟨level, .verbosity hunasked hgreatest hlevel⟩
  by_cases hunset : AsksFor .filter arguments ∨
      ∀ text, setting = some text → text = [] ∨ IsSpec text
  · exact ⟨_, .standard hunasked hbrief hunset⟩
  · obtain ⟨hunfiltered, hset⟩ := not_or.mp hunset
    simp only [not_forall, not_or] at hset
    obtain ⟨text, hset, hsome, hlevel⟩ := hset
    exact ⟨_, .setting hunasked hbrief hunfiltered hset hsome hlevel⟩

theorem exists_specFrom (arguments : List Bytes) (setting : Option Bytes) :
    ∃ spec, SpecFrom arguments setting spec := by
  rcases last_or_none .filter arguments with ⟨spec, hlast⟩ | hunfiltered
  · exact ⟨spec, .asked hlast⟩
  by_cases hunset : AsksFor .level arguments ∨ AsksFor .verbosity arguments ∨
      ∀ text, setting = some text → ¬IsSpec text
  · exact ⟨_, .none hunfiltered hunset⟩
  · obtain ⟨hunasked, hrest⟩ := not_or.mp hunset
    obtain ⟨hbrief, hset⟩ := not_or.mp hrest
    simp only [not_forall, not_not] at hset
    obtain ⟨text, hset, hspec⟩ := hset
    exact ⟨_, .setting hunasked hbrief hunfiltered hset hspec⟩

/-! ## The settings -/

theorem level_of_last (h : IsLast .level arguments level) :
    (Wishes.ofArguments arguments).level = some level :=
  Wishes.view_of_last Wishes.level_isSaidIn h

theorem level_of_none (h : ¬AsksFor .level arguments) :
    (Wishes.ofArguments arguments).level = none :=
  Wishes.view_of_none Wishes.level_isSaidIn rfl h

theorem filter_of_last (h : IsLast .filter arguments spec) :
    (Wishes.ofArguments arguments).filter = some spec :=
  Wishes.view_of_last Wishes.filter_isSaidIn h

theorem filter_of_none (h : ¬AsksFor .filter arguments) :
    (Wishes.ofArguments arguments).filter = none :=
  Wishes.view_of_none Wishes.filter_isSaidIn rfl h

/-- A level that is asked for leaves the setting of the environment unread. -/
theorem configure_of_level (setting : Option Bytes) (h : IsLast .level arguments level) :
    (configure arguments setting).level = level ∧
      (configure arguments setting).filterSpec = (Wishes.ofArguments arguments).filter.getD [] := by
  simp [configure, level_of_last h]

theorem configure_of_verbosity (setting : Option Bytes) (hunasked : ¬AsksFor .level arguments)
    (h : AsksFor .verbosity arguments) :
    (configure arguments setting).level =
        Wishes.levelOfVerbosity (Wishes.ofArguments arguments).verbosity ∧
      (configure arguments setting).filterSpec = (Wishes.ofArguments arguments).filter.getD [] := by
  simp [configure, level_of_none hunasked, (verbosity_of_asks h).1]

section Brief

variable (hunasked : ¬AsksFor .level arguments) (hbrief : ¬AsksFor .verbosity arguments)

include hunasked hbrief

theorem configure_of_last_filter (setting : Option Bytes) (h : IsLast .filter arguments spec) :
    (configure arguments setting).level = .warn ∧
      (configure arguments setting).filterSpec = spec := by
  simp [configure, level_of_none hunasked, verbosity_of_none hbrief, filter_of_last h,
    Config.standard]

variable (hunfiltered : ¬AsksFor .filter arguments)

include hunfiltered

theorem configure_of_unset (h : ∀ text, setting = some text → text = []) :
    (configure arguments setting).level = .warn ∧
      (configure arguments setting).filterSpec = [] := by
  have hsetting : setting = none ∨ setting = some [] := by
    cases setting with
    | none => exact .inl rfl
    | some text => exact .inr (congrArg some (h text rfl))
  rcases hsetting with rfl | rfl <;>
    simp [configure, level_of_none hunasked, verbosity_of_none hbrief,
      filter_of_none hunfiltered, Config.standard]

/-- A setting that is not empty is read as what it looks like. -/
theorem configure_of_set {text : Bytes} (hsome : text ≠ []) :
    (IsSpec text → (configure arguments (some text)).level = .warn ∧
      (configure arguments (some text)).filterSpec = text) ∧
    (¬IsSpec text → (configure arguments (some text)).level = Level.ofName text ∧
      (configure arguments (some text)).filterSpec = []) := by
  obtain ⟨b, rest, rfl⟩ := List.exists_cons_of_ne_nil hsome
  have hconfigure : configure arguments (some (b :: rest)) =
      if (b :: rest).any (fun b => b == Byte.equals || b == Byte.comma) = true then
        { Config.standard with
          filterSpec := b :: rest, file := (Wishes.ofArguments arguments).file.getD [] }
      else
        { Config.standard with
          filterSpec := [], file := (Wishes.ofArguments arguments).file.getD []
          level := Level.ofName (b :: rest) } := by
    simp [configure, level_of_none hunasked, verbosity_of_none hbrief,
      filter_of_none hunfiltered]
  rw [hconfigure]
  constructor
  · intro hspec
    rw [if_pos (isSpec_iff.mpr hspec)]
    exact ⟨rfl, rfl⟩
  · intro hlevel
    rw [if_neg (mt isSpec_iff.mp hlevel)]
    exact ⟨rfl, rfl⟩

end Brief

theorem IsSpec.ne_nil {text : Bytes} (h : IsSpec text) : text ≠ [] := by
  rintro rfl
  simp [IsSpec] at h

theorem LevelFrom.configure_eq (h : LevelFrom arguments setting level) :
    (configure arguments setting).level = level := by
  cases h with
  | asked last => exact (configure_of_level setting last).1
  | verbosity unasked greatest means =>
    have hasks : AsksFor .verbosity arguments := by
      obtain ⟨argument, hargument, hasks⟩ := greatest.1
      exact ⟨argument, hargument, _, hasks⟩
    rw [(configure_of_verbosity setting unasked hasks).1,
      (verbosity_of_asks hasks).2.unique greatest, levelOfVerbosity_eq means]
  | setting unasked brief unfiltered isSet isSome isLevel =>
    subst isSet
    exact ((configure_of_set unasked brief unfiltered isSome).2 isLevel).1
  | standard unasked brief unset =>
    rcases last_or_none .filter arguments with ⟨spec, hlast⟩ | hunfiltered
    · exact (configure_of_last_filter unasked brief setting hlast).1
    have hunset := unset.resolve_left hunfiltered
    cases setting with
    | none => exact (configure_of_unset unasked brief hunfiltered fun _ h => by cases h).1
    | some text =>
      rcases hunset text rfl with rfl | hspec
      · exact (configure_of_unset unasked brief hunfiltered fun _ h => (Option.some.inj h).symm).1
      · exact ((configure_of_set unasked brief hunfiltered hspec.ne_nil).1 hspec).1

theorem SpecFrom.configure_eq (h : SpecFrom arguments setting spec) :
    (configure arguments setting).filterSpec = spec := by
  -- Where a level or a verbosity is asked for, the arguments alone decide.
  have hasked (h : AsksFor .level arguments ∨ AsksFor .verbosity arguments) :
      (configure arguments setting).filterSpec = (Wishes.ofArguments arguments).filter.getD [] := by
    rcases last_or_none .level arguments with ⟨level, hlast⟩ | hunasked
    · exact (configure_of_level setting hlast).2
    · exact (configure_of_verbosity setting hunasked (h.resolve_left hunasked)).2
  by_cases hboth : AsksFor .level arguments ∨ AsksFor .verbosity arguments
  · rw [hasked hboth]
    cases h with
    | asked last => rw [filter_of_last last, Option.getD_some]
    | setting unasked brief => exact absurd hboth (not_or.mpr ⟨unasked, brief⟩)
    | none unfiltered => rw [filter_of_none unfiltered, Option.getD_none]
  · obtain ⟨hunasked, hbrief⟩ := not_or.mp hboth
    cases h with
    | asked last => exact (configure_of_last_filter hunasked hbrief setting last).2
    | setting _ _ unfiltered isSet isSpec =>
      subst isSet
      exact ((configure_of_set hunasked hbrief unfiltered isSpec.ne_nil).1 isSpec).2
    | none unfiltered unset =>
      have hunset := (unset.resolve_left hunasked).resolve_left hbrief
      by_cases hempty : ∀ text, setting = some text → text = []
      · exact (configure_of_unset hunasked hbrief unfiltered hempty).2
      · simp only [not_forall] at hempty
        obtain ⟨text, rfl, hsome⟩ := hempty
        exact ((configure_of_set hunasked hbrief unfiltered hsome).2 (hunset text rfl)).2

theorem configure_level_iff :
    (configure arguments setting).level = level ↔ LevelFrom arguments setting level := by
  refine ⟨fun h => ?_, LevelFrom.configure_eq⟩
  obtain ⟨level, hlevel⟩ := exists_levelFrom arguments setting
  rwa [← h, hlevel.configure_eq]

theorem configure_filterSpec_iff :
    (configure arguments setting).filterSpec = spec ↔ SpecFrom arguments setting spec := by
  refine ⟨fun h => ?_, SpecFrom.configure_eq⟩
  obtain ⟨spec, hspec⟩ := exists_specFrom arguments setting
  rwa [← h, hspec.configure_eq]

/-! ## Sharing -/

/-- The arguments of the log, in their order. -/
def logArguments (arguments : List Bytes) : List Bytes := arguments.filter isLogArgument

/-- The log sees its own arguments only. -/
theorem configure_logArguments (arguments : List Bytes) (setting : Option Bytes) :
    configure (logArguments arguments) setting = configure arguments setting := by
  have hrequests : (logArguments arguments).filterMap Request.ofArgument? =
      arguments.filterMap Request.ofArgument? := by
    rw [logArguments, List.filterMap_filter]
    congr
    funext argument
    rw [isLogArgument_eq]
    cases Request.ofArgument? argument <;> rfl
  unfold configure Wishes.ofArguments
  rw [hrequests]

end Log

/-! ## What an argument sets in the options of the tool -/

namespace Cli.Options

/-- A text of digits whose number is a depth: it is not zero, and it fits into 64 bits. -/
structure IsDepth (text : Bytes) (limit : Nat) : Prop where
  some : text ≠ []
  digits : ∀ b ∈ text, Byte.isDigit b = true
  value : limit = Bytes.digitsValue text
  positive : 0 < limit
  fits : limit < 2 ^ 64

/-- An argument that is a path, and no option. -/
def IsPath (argument : Bytes) : Prop := argument.head? ≠ some Byte.minus

/-- What one more argument sets in some options, or what is wrong with it. -/
inductive Adds (o : Options) : Bytes → Except UsageError Options → Prop
  | pretty : Adds o (utf8 "--pretty") (.ok { o with pretty := true })
  | depth {text : Bytes} {limit : Nat} (isDepth : IsDepth text limit) :
      Adds o (utf8 "--max-depth=" ++ text) (.ok { o with limit })
  | badDepth {text : Bytes} (noDepth : ∀ limit, ¬IsDepth text limit) :
      Adds o (utf8 "--max-depth=" ++ text) (.error (.badDepth text))
  | log {argument : Bytes} {request : Log.Request} (asks : Log.Asks argument request) :
      Adds o argument (.ok o)
  | unknown {argument : Bytes} (isOption : ¬IsPath argument)
      (notPretty : argument ≠ utf8 "--pretty")
      (notDepth : ∀ text, argument ≠ utf8 "--max-depth=" ++ text)
      (notLog : ∀ request, ¬Log.Asks argument request) :
      Adds o argument (.error (.unknownOption argument))
  | path {argument : Bytes} (isPath : IsPath argument) (first : o.path = []) :
      Adds o argument (.ok { o with path := argument })
  | extra {argument : Bytes} (isPath : IsPath argument) (second : o.path ≠ []) :
      Adds o argument (.error (.extraArgument argument))

variable {o o' : Options} {argument text : Bytes} {arguments : List Bytes} {limit : Nat}
  {answer : Except UsageError Options}

theorem depth_eq_some : depth? text = some limit ↔ IsDepth text limit := by
  have hfits : Number.unsignedLimit = 2 ^ 64 := rfl
  unfold depth?
  constructor
  · intro h
    split at h
    · next hdigits =>
      obtain ⟨⟨hpositive, hlimit⟩, hvalue⟩ := Option.ite_none_right_eq_some.mp h
      cases hvalue
      exact ⟨hdigits.1, List.all_eq_true.mp hdigits.2, rfl, hpositive, hfits ▸ hlimit⟩
    · cases h
  · rintro ⟨hsome, hdigits, rfl, hpositive, hlimit⟩
    rw [if_pos ⟨hsome, List.all_eq_true.mpr hdigits⟩, hfits]
    exact if_pos ⟨hpositive, hlimit⟩

theorem not_isPath_of_asks {request : Log.Request} (h : Log.Asks argument request) :
    ¬IsPath argument := by
  cases h <;> exact fun hpath => hpath rfl

theorem after_eq_none {start : Bytes} (h : ∀ text, argument ≠ start ++ text) :
    Bytes.after? start argument = none :=
  Option.eq_none_iff_forall_ne_some.mpr fun text htext => h text (Bytes.after_eq_some.mp htext)

theorem add_of_path (h : IsPath argument) (o : Options) : o.add argument =
    if o.path = [] then .ok { o with path := argument } else .error (.extraArgument argument) := by
  have hpretty : argument ≠ utf8 "--pretty" := by
    rintro rfl
    exact h rfl
  have hdepth : Bytes.after? (utf8 "--max-depth=") argument = none := after_eq_none fun text heq =>
    h (heq ▸ rfl)
  have hlog : ¬Log.isLogArgument argument = true := fun hlog =>
    have ⟨_, hasks⟩ := Log.isLogArgument_iff.mp hlog
    not_isPath_of_asks hasks h
  rw [add, if_neg hpretty, hdepth]
  exact (if_neg hlog).trans (if_neg h)

theorem add_of_depth (o : Options) (text : Bytes) : o.add (utf8 "--max-depth=" ++ text) =
    (depth? text).elim (.error (.badDepth text)) fun limit => .ok { o with limit } := by
  have hpretty : utf8 "--max-depth=" ++ text ≠ utf8 "--pretty" := fun h => by
    have hthird : some (0x6d : UInt8) = some 0x70 := congrArg (·[2]?) h
    exact absurd hthird (by decide)
  rw [add, if_neg hpretty, Bytes.after_append]
  dsimp only
  cases depth? text <;> rfl

theorem adds_add (o : Options) (argument : Bytes) : Adds o argument (o.add argument) := by
  unfold add
  split
  · next hpretty => exact hpretty ▸ .pretty
  next hpretty =>
  split
  · next text htext =>
    rw [Bytes.after_eq_some.mp htext]
    cases hdepth : depth? text with
    | some limit => exact .depth (depth_eq_some.mp hdepth)
    | none =>
      refine .badDepth fun limit hlimit => ?_
      rw [depth_eq_some.mpr hlimit] at hdepth
      cases hdepth
  next hdepth =>
  split
  · next hlog =>
    obtain ⟨request, hasks⟩ := Log.isLogArgument_iff.mp hlog
    exact .log hasks
  next hlog =>
  split
  · next hoption =>
    refine .unknown (not_not_intro hoption) hpretty (fun text heq => ?_) fun request hasks =>
      hlog (Log.isLogArgument_iff.mpr ⟨request, hasks⟩)
    rw [Bytes.after_eq_some.mpr heq] at hdepth
    cases hdepth
  next hpath =>
  split
  · next hfirst => exact .path hpath hfirst
  · next hsecond => exact .extra hpath hsecond

theorem add_of_adds (h : Adds o argument answer) : o.add argument = answer := by
  cases h with
  | pretty => rfl
  | depth isDepth => rw [add_of_depth, depth_eq_some.mpr isDepth, Option.elim_some]
  | @badDepth text noDepth =>
    have hdepth : depth? text = none :=
      Option.eq_none_iff_forall_ne_some.mpr fun limit h => noDepth limit (depth_eq_some.mp h)
    rw [add_of_depth, hdepth, Option.elim_none]
  | log asks => exact add_of_log (Log.isLogArgument_iff.mpr ⟨_, asks⟩) o
  | unknown isOption notPretty notDepth notLog =>
    have hlog : ¬Log.isLogArgument argument = true := fun hlog =>
      have ⟨request, hasks⟩ := Log.isLogArgument_iff.mp hlog
      notLog request hasks
    rw [add, if_neg notPretty, after_eq_none notDepth]
    exact (if_neg hlog).trans (if_pos (not_not.mp isOption))
  | path isPath first => rw [add_of_path isPath, if_pos first]
  | extra isPath second => rw [add_of_path isPath, if_neg second]

/-- What an argument sets, and which ones are refused. -/
theorem add_eq_iff : o.add argument = answer ↔ Adds o argument answer :=
  ⟨fun h => h ▸ adds_add o argument, add_of_adds⟩

/-- An argument that says how deep values may nest. -/
def SaysDepth (argument : Bytes) (limit : Nat) : Prop :=
  ∃ text, argument = utf8 "--max-depth=" ++ text ∧ IsDepth text limit

/-- The options with one more argument, unless it is refused. -/
def heed (o : Options) (argument : Bytes) : Options := (o.add argument).toOption.getD o

theorem heed_of_adds (h : Adds o argument answer) : o.heed argument = answer.toOption.getD o := by
  rw [heed, add_of_adds h]

/-- Where some arguments are all taken, the first is, and then the others. -/
theorem foldlM_add_cons (h : (argument :: arguments).foldlM add o = .ok o') :
    ∃ next, o.add argument = .ok next ∧ arguments.foldlM add next = .ok o' := by
  rw [List.foldlM_cons] at h
  cases hadd : o.add argument with
  | error e =>
    rw [hadd] at h
    cases h
  | ok next =>
    rw [hadd] at h
    exact ⟨next, rfl, h⟩

theorem foldl_heed (h : arguments.foldlM add o = .ok o') : arguments.foldl heed o = o' := by
  induction arguments generalizing o with
  | nil => exact Except.ok.inj h
  | cons argument arguments ih =>
    obtain ⟨next, hadd, hrest⟩ := foldlM_add_cons h
    rw [List.foldl_cons, heed_of_adds (add_eq_iff.mp hadd)]
    exact ih hrest

theorem pretty_isSaidIn :
    IsSaidIn heed pretty (fun _ : Unit => true) fun argument _ => argument = utf8 "--pretty" where
  set o _ _ h := by
    rw [h, heed_of_adds .pretty]
    rfl
  stay o argument h := by
    have hadds := adds_add o argument
    rw [heed]
    generalize o.add argument = answer at hadds
    cases hadds with
    | pretty => exact absurd rfl (h ())
    | _ => rfl

theorem limit_isSaidIn : IsSaidIn heed Options.limit id SaysDepth where
  set o argument limit h := by
    obtain ⟨text, rfl, hdepth⟩ := h
    rw [heed_of_adds (.depth hdepth)]
    rfl
  stay o argument h := by
    have hadds := adds_add o argument
    rw [heed]
    generalize o.add argument = answer at hadds
    cases hadds with
    | depth isDepth => exact absurd ⟨_, rfl, isDepth⟩ (h _)
    | _ => rfl

/-- The paths among some arguments. An empty one counts for nothing. -/
def paths (arguments : List Bytes) : List Bytes :=
  arguments.filter fun a => a ≠ [] ∧ a.head? ≠ some Byte.minus

/-- The path of some options, if there is one yet. -/
def given (o : Options) : List Bytes := [o.path].filter (· ≠ [])

theorem given_of_add (h : o.add argument = .ok o') : o'.given = o.given ++ paths [argument] := by
  have hstay (hoption : ¬IsPath argument) : o.given = o.given ++ paths [argument] := by
    simp [paths, not_not.mp hoption]
  cases add_eq_iff.mp h with
  | pretty | depth => exact hstay fun hpath => hpath rfl
  | log asks => exact hstay (not_isPath_of_asks asks)
  | path isPath first =>
    have hhead : argument.head? ≠ some Byte.minus := isPath
    simp [given, paths, first, hhead, List.filter_cons]

theorem given_of_foldlM (h : arguments.foldlM add o = .ok o') :
    o'.given = o.given ++ paths arguments := by
  induction arguments generalizing o with
  | nil =>
    cases h
    exact (List.append_nil _).symm
  | cons argument arguments ih =>
    have hcons : paths (argument :: arguments) = paths [argument] ++ paths arguments :=
      List.filter_append [argument] arguments
    obtain ⟨next, hadd, hrest⟩ := foldlM_add_cons h
    rw [hcons, ← List.append_assoc, ← given_of_add hadd]
    exact ih hrest

theorem ofArguments_eq_ok (h : ofArguments arguments = .ok o) :
    arguments.foldlM add initial = .ok o ∧ o.path ≠ [] := by
  unfold ofArguments at h
  split at h
  · cases h
  next taken htaken =>
    split at h
    · cases h
    next hpath =>
      cases h
      exact ⟨htaken, hpath⟩

/-- The options that all arguments together set, if none is refused: the flag just if it is
there, the last depth, if there is any, and the one path. -/
theorem the_options_are_what_the_arguments_set (h : ofArguments arguments = .ok o) :
    (o.pretty = true ↔ utf8 "--pretty" ∈ arguments) ∧
    (∀ limit, LastWord SaysDepth arguments limit → o.limit = limit) ∧
    (Silent SaysDepth arguments → o.limit = standardLimit) ∧
    paths arguments = [o.path] := by
  obtain ⟨htaken, hpath⟩ := ofArguments_eq_ok h
  have hheed := foldl_heed htaken
  have hgiven := given_of_foldlM htaken
  refine ⟨?_, fun limit hlast => ?_, fun hsilent => ?_, ?_⟩
  · rw [← hheed]
    rcases lastWord_or_silent (fun argument (_ : Unit) => argument = utf8 "--pretty") arguments with
      ⟨a, hlast⟩ | hsilent
    · obtain ⟨before, _, behind, hall, rfl, -⟩ := id hlast
      exact iff_of_true (pretty_isSaidIn.foldl_lastWord initial hlast) (by simp [hall])
    · have hflag := pretty_isSaidIn.foldl_silent initial hsilent
      exact iff_of_false (Bool.eq_false_iff.mp hflag) fun hmem => hsilent _ hmem () rfl
  · rw [← hheed]
    exact limit_isSaidIn.foldl_lastWord initial hlast
  · rw [← hheed]
    exact limit_isSaidIn.foldl_silent initial hsilent
  · simpa [given, initial, hpath] using hgiven.symm

end Cli.Options

/-! ## The law -/

open Log Cli

/-- The settings of the log depend on its own arguments only and the options of the tool, or
what is wrong with them, on the others only. So they stay the same however the arguments are
interleaved. The level and the specification of the log are those that the arguments of the
log and the setting of the environment ask for. -/
theorem the_log_and_the_tool_share_the_arguments (arguments : List Bytes) (setting : Option Bytes) :
    configure arguments setting = configure (logArguments arguments) setting ∧
    Options.ofArguments arguments = Options.ofArguments (ownArguments arguments) ∧
    (∀ others, logArguments others = logArguments arguments →
      ownArguments others = ownArguments arguments →
      configure others setting = configure arguments setting ∧
        Options.ofArguments others = Options.ofArguments arguments) ∧
    (∀ level, (configure arguments setting).level = level ↔ LevelFrom arguments setting level) ∧
    ∀ spec, (configure arguments setting).filterSpec = spec ↔ SpecFrom arguments setting spec := by
  refine ⟨(configure_logArguments arguments setting).symm,
    (Options.ofArguments_own arguments).symm, ?_,
    fun level => configure_level_iff, fun spec => configure_filterSpec_iff⟩
  intro others hlog hown
  constructor
  · rw [← configure_logArguments others, hlog, configure_logArguments]
  · rw [← Options.ofArguments_own others, hown, Options.ofArguments_own]

/-- A letter and a filter for the log, and a file and a depth for the tool, in two orders. -/
theorem the_log_and_the_tool_share_four_arguments :
    let arguments := [utf8 "-v", utf8 "m", utf8 "--log-filter=lexer=off", utf8 "--max-depth=3"]
    let others := [utf8 "m", utf8 "--max-depth=3", utf8 "-v", utf8 "--log-filter=lexer=off"]
    logArguments others = logArguments arguments ∧ ownArguments others = ownArguments arguments ∧
      configure others none = configure arguments none ∧
      Options.ofArguments others = Options.ofArguments arguments ∧
      LevelFrom arguments none .info ∧ SpecFrom arguments none (utf8 "lexer=off") ∧
      Options.ofArguments arguments = .ok ⟨utf8 "m", false, 3⟩ := by
  intro arguments others
  have hlog : logArguments others = logArguments arguments := by decide +kernel
  have hown : ownArguments others = ownArguments arguments := by decide +kernel
  obtain ⟨-, -, hshare, hlevel, hspec⟩ := the_log_and_the_tool_share_the_arguments arguments none
  obtain ⟨hconfigure, hoptions⟩ := hshare others hlog hown
  have hinfo : (configure arguments none).level = .info := by decide +kernel
  have hoff : (configure arguments none).filterSpec = utf8 "lexer=off" := by decide +kernel
  exact ⟨hlog, hown, hconfigure, hoptions, (hlevel _).mp hinfo, (hspec _).mp hoff,
    by decide +kernel⟩

-- The greatest verbosity counts and not the last one, and it counts before the setting.
example :
    (configure [utf8 "m.sidl", utf8 "-vvv", utf8 "--pretty", utf8 "-v"] (some (utf8 "off"))).level =
    .trace := by
  decide +kernel

end ShapeTraits
