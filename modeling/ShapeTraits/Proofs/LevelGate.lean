-- The level of the log as a gate before its filter: what each change of the settings does
-- to the two of them, and when the gate opens for all that the filter lets through.
import ShapeTraits.Log.Logger

namespace ShapeTraits.Log

/-! ## Levels -/

namespace Level

variable {a b c : Level}

theorem le_iff : a ≤ b ↔ a.rank ≤ b.rank := Iff.rfl

@[simp] theorem le_refl (a : Level) : a ≤ a := Nat.le_refl a.rank

theorem le_trans (h : a ≤ b) (g : b ≤ c) : a ≤ c := by
  rw [le_iff] at *
  omega

/-- The lower of two levels is reached where one of them is. -/
theorem lower_le_iff : a.lower b ≤ c ↔ a ≤ c ∨ b ≤ c := by
  unfold lower
  split <;> simp only [le_iff] at * <;> omega

theorem le_lower_iff : c ≤ a.lower b ↔ c ≤ a ∧ c ≤ b := by
  unfold lower
  split <;> simp only [le_iff] at * <;> omega

end Level

/-! ## Filters -/

namespace Filter

variable {f : Filter} {name : Bytes} {level own : Level}

theorem allows_iff : f.allows level name = true ↔ f.threshold name ≤ level := by
  unfold allows
  exact decide_eq_true_iff

theorem threshold_of_some (h : f.modules.lookup name = some own) : f.threshold name = own := by
  simp [threshold, h]

theorem threshold_of_none (h : f.modules.lookup name = none) : f.threshold name = f.fallback := by
  simp [threshold, h]

theorem le_lowest_iff :
    level ≤ f.lowest ↔ level ≤ f.fallback ∧ ∀ entry ∈ f.modules, level ≤ entry.2 := by
  unfold lowest
  induction f.modules with
  | nil => simp
  | cons entry entries ih => simp [Level.le_lower_iff, ih, and_left_comm]

/-- No threshold is below the lowest level. -/
theorem lowest_le_threshold (f : Filter) (name : Bytes) : f.lowest ≤ f.threshold name := by
  obtain ⟨hfallback, hmodules⟩ := le_lowest_iff.mp (Level.le_refl f.lowest)
  cases h : f.modules.lookup name with
  | none => rwa [threshold_of_none h]
  | some own =>
    rw [threshold_of_some h]
    obtain ⟨before, behind, hentries, -⟩ := List.lookup_eq_some_iff.mp h
    exact hmodules (name, own) (by simp [hentries])

end Filter

/-! ## The gate -/

namespace Logger

variable {l : Logger} {level : Level} {name : Bytes}

theorem shouldLog_iff :
    l.shouldLog level name = true ↔ l.level ≤ level ∧ l.filter.allows level name = true := by
  unfold shouldLog
  rw [Bool.and_eq_true, decide_eq_true_iff]

/-- A gate at or below the threshold of a module keeps none of its messages back. -/
theorem shouldLog_of_le (h : l.level ≤ l.filter.threshold name) (level : Level) :
    l.shouldLog level name = l.filter.allows level name := by
  rw [Bool.eq_iff_iff, shouldLog_iff, Filter.allows_iff]
  exact and_iff_right_of_imp (Level.le_trans h)

/-- The gate changes nothing just if it is above no threshold. -/
theorem gate_iff : (∀ level name, l.shouldLog level name = l.filter.allows level name) ↔
    ∀ name, l.level ≤ l.filter.threshold name := by
  constructor
  · intro h name
    have hallows : l.filter.allows (l.filter.threshold name) name = true :=
      Filter.allows_iff.mpr (Level.le_refl _)
    rw [← h] at hallows
    exact (shouldLog_iff.mp hallows).1
  · exact fun h level name => shouldLog_of_le (h name) level

end Logger

/-! ## Changes of the settings -/

/-- A change of the settings: all of them anew, the level, or the filter. -/
inductive Change where
  | init (c : Config)
  | level (level : Level)
  | filter (spec : Bytes)
  deriving DecidableEq, Repr

namespace Logger

/-- The log and its surroundings after one change. -/
def change (l : Logger) (h : Host) : Change → Logger × Host
  | .init c => l.init c h
  | .level level => (l.setLevel level, h)
  | .filter spec => (l.setFilter spec, h)

/-- The log and its surroundings after some changes, from the start of the program on. -/
def after (changes : List Change) (h : Host) : Logger × Host :=
  changes.foldl (fun reached next => reached.1.change reached.2 next) (.initial, h)

variable {changes : List Change} {h : Host}

theorem after_append (changes : List Change) (next : Change) (h : Host) :
    after (changes ++ [next]) h = (after changes h).1.change (after changes h).2 next := by
  simp [after]

theorem init_gate (l : Logger) (c : Config) (h : Host) (name : Bytes) :
    (l.init c h).1.level ≤ (l.init c h).1.filter.threshold name :=
  Filter.lowest_le_threshold _ name

theorem setFilter_gate (l : Logger) (spec name : Bytes) :
    (l.setFilter spec).level ≤ (l.setFilter spec).filter.threshold name :=
  Filter.lowest_le_threshold _ name

/-- A level that is set is a gate, and the threshold of the modules without one of their own. -/
theorem setLevel_gate_iff (l : Logger) (level : Level) :
    (∀ name, (l.setLevel level).level ≤ (l.setLevel level).filter.threshold name) ↔
      ∀ name own, l.filter.modules.lookup name = some own → level ≤ own := by
  constructor
  · intro hgate name own hown
    have hname := hgate name
    rwa [Filter.threshold_of_some (f := (l.setLevel level).filter) hown] at hname
  · intro hmodules name
    cases hown : l.filter.modules.lookup name with
    | none =>
      rw [Filter.threshold_of_none (f := (l.setLevel level).filter) hown]
      exact Level.le_refl level
    | some own =>
      rw [Filter.threshold_of_some (f := (l.setLevel level).filter) hown]
      exact hmodules name own hown

/-- Unless the last change set a level, the gate is above no threshold. -/
theorem after_gate (hlast : ∀ before level, changes ≠ before ++ [.level level]) (name : Bytes) :
    (after changes h).1.level ≤ (after changes h).1.filter.threshold name := by
  rcases List.eq_nil_or_concat changes with rfl | ⟨before, last, rfl⟩
  · exact Level.le_refl .info
  · rw [List.concat_eq_append, after_append]
    cases last with
    | init c => exact init_gate _ c _ name
    | filter spec => exact setFilter_gate _ spec name
    | level level => exact absurd (List.concat_eq_append ..) (hlast before level)

/-- A list has no other last change, and no other changes before it, than those at its end. -/
theorem forall_last_iff {p : List Change → Level → Prop} {before : List Change} {gate : Level} :
    (∀ before' gate', before ++ [Change.level gate] = before' ++ [.level gate'] → p before' gate') ↔
      p before gate := by
  constructor
  · exact fun hall => hall before gate rfl
  · intro hp before' gate' heq
    obtain ⟨rfl, hgate⟩ := List.append_inj' heq rfl
    cases hgate
    exact hp

/-! ## The law -/

/-- After any changes of the settings, a message is written if the filter allows it and no
level above its own was set by the last change. So the gate keeps back nothing that the
filter allows, unless the last change set it above the level that some module has of its own. -/
theorem the_gate_opens_for_the_filter_unless_it_was_set_above_a_module (changes : List Change)
    (h : Host) :
    let l := (after changes h).1
    (∀ level name, l.shouldLog level name = true ↔
      l.filter.allows level name = true ∧
        ∀ before gate, changes = before ++ [.level gate] → gate ≤ level) ∧
    ((∀ level name, l.shouldLog level name = l.filter.allows level name) ↔
      ∀ before gate, changes = before ++ [.level gate] →
        ∀ name own, (after before h).1.filter.modules.lookup name = some own → gate ≤ own) := by
  intro l
  -- Only a level that is set last can be above a threshold.
  by_cases hlast : ∃ before gate, changes = before ++ [.level gate]
  · obtain ⟨before, gate, rfl⟩ := hlast
    have hl : l = (after before h).1.setLevel gate := congrArg Prod.fst (after_append before _ h)
    rw [hl]
    constructor
    · intro level name
      rw [forall_last_iff, shouldLog_iff, and_comm]
      rfl
    · rw [forall_last_iff, gate_iff, setLevel_gate_iff]
  · have hnever : ∀ before gate, changes ≠ before ++ [.level gate] :=
      fun before gate heq => hlast ⟨before, gate, heq⟩
    have hgate (level : Level) (name : Bytes) :
        l.shouldLog level name = l.filter.allows level name :=
      shouldLog_of_le (after_gate hnever name) level
    constructor
    · intro level name
      rw [hgate]
      exact (and_iff_left fun before gate heq => absurd heq (hnever before gate)).symm
    · exact iff_of_true hgate fun before gate heq => absurd heq (hnever before gate)

/-- A module that is followed closely is kept back by a level that is set after its own. -/
theorem a_level_keeps_a_module_back :
    let h : Host := ⟨.emptyAt [], [], [], 0, false, none, none⟩
    let l := (after [.filter (utf8 "parser=trace"), .level .warn] h).1
    l.filter.allows .trace (utf8 "parser") = true ∧ l.shouldLog .trace (utf8 "parser") = false := by
  decide +kernel

end Logger

end ShapeTraits.Log
