-- Statements as values: the object that a statement is turned into holds its target
-- and the names, kinds and values of its traits, and every number in it is that of
-- a token.
import Mathlib.Data.List.Basic
import ShapeTraits.Proofs.Relocation
import ShapeTraits.Proofs.ValueReading

namespace ShapeTraits

open Grammar

/-! ## Copies -/

theorem KeyedList.insertNew_of_not_mem {α : Type} {m : KeyedList α} {key : Bytes} {l : Location}
    {value : α} (h : key ∉ m.entries.map (·.key)) :
    m.insertNew key l value = ⟨m.entries ++ [⟨key, l, value⟩]⟩ := by
  rw [insertNew, insert?_eq_some.mpr ⟨h, rfl⟩]
  rfl

namespace Node

theorem copyItems_eq {items : List Node} (h : ∀ n ∈ items, n.copy = n) :
    copyItems items = items := by
  induction items with
  | nil => rfl
  | cons n items ih =>
    obtain ⟨hn, hitems⟩ := List.forall_mem_cons.mp h
    rw [copyItems, hn, ih hitems]

theorem copyMembers_eq {entries copied : List (Entry Node)}
    (h : ∀ e ∈ entries, e.value.copy = e.value)
    (hdistinct : ((copied ++ entries).map (·.key)).Nodup) :
    copyMembers entries ⟨copied⟩ = ⟨copied ++ entries⟩ := by
  -- The members copied so far are the accumulator, whose keys are all different from
  -- those ahead.
  induction entries generalizing copied with
  | nil => rw [copyMembers, List.append_nil]
  | cons e entries ih =>
    obtain ⟨he, hentries⟩ := List.forall_mem_cons.mp h
    have hsplit : copied ++ e :: entries = copied ++ [e] ++ entries := by simp
    rw [hsplit] at hdistinct ⊢
    have hnew : e.key ∉ copied.map (·.key) := by
      rw [List.map_append] at hdistinct
      exact ((nodup_keys_append e).mp (List.nodup_append.mp hdistinct).1).2
    rw [copyMembers, he, KeyedList.insertNew_of_not_mem hnew, ih hentries hdistinct]

/-- A copy is the value itself, if no object in it has two equal keys. -/
theorem copy_eq {n : Node} (h : n.hasDistinctKeys) : n.copy = n := by
  induction n with
  | array l items ih =>
    rw [hasDistinctKeys_array] at h
    rw [copy, copyItems_eq fun n hn => ih n hn (h n hn)]
  | object l entries ih =>
    rw [hasDistinctKeys_object] at h
    have hcopied : copyMembers entries ⟨[]⟩ = ⟨[] ++ entries⟩ :=
      copyMembers_eq (fun e he => ih e he (h.2 e he)) h.1
    rw [copy, KeyedList.empty, hcopied]
    rfl
  | _ => rfl

end Node

/-! ## Records -/

/-- A member without a location. -/
def Entry.unplaced (key : Bytes) (value : Node) : Entry Node := ⟨key, .nowhere, value⟩

/-- What a trait says, as an object. -/
def Trait.record (t : Trait) : Node :=
  .object .nowhere ⟨[.unplaced (utf8 "name") (.string .nowhere t.name),
    .unplaced (utf8 "kind") (.string .nowhere t.kind.text),
    .unplaced (utf8 "value") (t.value.bare id)]⟩

/-- What a statement says, as an object. -/
def Apply.record (s : Apply) : Node :=
  .object .nowhere ⟨[.unplaced (utf8 "target") (.string .nowhere s.target),
    .unplaced (utf8 "traits") (.array .nowhere (s.traits.map Trait.record))]⟩

namespace Apply

theorem traitNode_eq (t : Trait) (h : t.value.hasDistinctKeys) : traitNode t =
    .object t.location ⟨[⟨utf8 "name", t.location, .string t.location t.name⟩,
      ⟨utf8 "kind", t.location, .string t.location t.kind.text⟩,
      ⟨utf8 "value", t.value.location, t.value⟩]⟩ := by
  rw [traitNode, Node.copy_eq h]
  rfl

theorem toNode_eq (s : Apply) : s.toNode =
    .object s.location ⟨[⟨utf8 "target", s.location, .string s.location s.target⟩,
      ⟨utf8 "traits", s.location, .array s.location (s.traits.map traitNode)⟩]⟩ := by
  rfl

variable {s : Apply} {levels : Nat}

/-- A statement as a value is its record, but for locations. -/
theorem toNode_bare (h : ∀ t ∈ s.traits, t.value.hasDistinctKeys) :
    s.toNode.bare id = s.record := by
  have htrait (t : Trait) (ht : t ∈ s.traits) : (traitNode t).bare id = t.record := by
    rw [traitNode_eq t (h t ht), Node.bare_object]
    rfl
  have htraits : (s.traits.map traitNode).map (Node.bare id) = s.traits.map Trait.record := by
    rw [List.map_map]
    exact List.map_congr_left htrait
  rw [toNode_eq, Node.bare_object, record, ← htraits]
  simp only [List.map_cons, List.map_nil, Node.bareEntry, Node.bare_array]
  rfl

/-- The record of a statement is three levels deeper than the values of its traits. -/
theorem toNode_fits (h : ∀ t ∈ s.traits, t.value.Fits levels) : s.toNode.Fits (levels + 3) := by
  have hflat (l : Location) (text : Bytes) (k : Nat) : (Node.string l text).Fits k :=
    Node.fits_of_flat ⟨rfl, rfl⟩
  have htrait (t : Trait) (ht : t ∈ s.traits) : (traitNode t).Fits (levels + 1) := by
    have hkeys : [utf8 "name", utf8 "kind", utf8 "value"].Nodup := by decide
    rw [traitNode_eq t (h t ht).distinct, Node.fits_object]
    refine ⟨hkeys, levels, rfl, ?_⟩
    simp only [List.forall_mem_cons, List.not_mem_nil, false_implies, implies_true, and_true]
    exact ⟨hflat _ _ _, hflat _ _ _, h t ht⟩
  have hkeys : [utf8 "target", utf8 "traits"].Nodup := by decide
  rw [toNode_eq, Node.fits_object]
  refine ⟨hkeys, levels + 2, rfl, ?_⟩
  simp only [List.forall_mem_cons, List.not_mem_nil, false_implies, implies_true, and_true]
  refine ⟨hflat _ _ _, Node.fits_array.mpr ⟨levels + 1, rfl, ?_⟩⟩
  rw [List.forall_mem_map]
  exact htrait

/-- The numbers in the values of a statement's traits. -/
def numbers (s : Apply) : List Number := s.traits.flatMap fun t => t.value.numbers

theorem numbers_toNode (h : ∀ t ∈ s.traits, t.value.hasDistinctKeys) :
    s.toNode.numbers = s.numbers := by
  have htrait (t : Trait) (ht : t ∈ s.traits) : (traitNode t).numbers = t.value.numbers := by
    rw [traitNode_eq t (h t ht), Node.numbers_object]
    simp [Node.numbers]
  rw [toNode_eq, Node.numbers_object]
  simp only [List.flatMap_cons, List.flatMap_nil, List.append_nil, Node.numbers_array]
  rw [List.flatMap_map]
  exact List.flatMap_congr htrait

end Apply

/-! ## Numbers from tokens -/

/-- Every number in something is that of one of the tokens. -/
def Draws {α : Type} (numbers : α → List Number) (w : List Token) (a : α) : Prop :=
  ∀ x ∈ numbers a, ∃ t ∈ w, t.content = .number x

theorem Draws.mono {α : Type} {numbers : α → List Number} {v w : List Token} {a : α}
    (h : Draws numbers v a) (hvw : v ⊆ w) : Draws numbers w a := by
  intro x hx
  obtain ⟨t, ht, hcontent⟩ := h x hx
  exact ⟨t, hvw ht, hcontent⟩

namespace Grammar

variable {α : Type} {P : Form α} {numbers : α → List Number} {v w : List Token}
    {refs : List Reference}
  {n : Node}

theorem draws_none {a : α} (h : numbers a = []) : Draws numbers w a := by
  intro x hx
  rw [h] at hx
  exact absurd hx List.not_mem_nil

theorem Many.draws {as : List α} (h : Many P w as refs)
    (hP : ∀ v a r, P v a r → Draws numbers v a) :
    Draws (List.flatMap numbers) w as := by
  induction h with
  | nil => exact draws_none rfl
  | @cons v g w a as _ _ first _ _ ih =>
    intro x hx
    rcases List.mem_append.mp hx with hx | hx
    · exact (hP _ _ _ first).mono (fun t ht => by simp [ht]) x hx
    · exact ih.mono (fun t ht => by simp [ht]) x hx

theorem Member.draws {V : Form Node} {e : Entry Node} (h : Member V w e refs)
    (hV : ∀ v n r, V v n r → Draws Node.numbers v n) : Draws (fun e => e.value.numbers) w e := by
  cases h with
  | mk _ _ _ _ hvalue => exact (hV _ _ _ hvalue).mono fun t ht => by simp [ht]

theorem numbers_meaning (text : Bytes) (l : Location) : (meaning text l).numbers = [] := by
  unfold meaning
  repeat' split
  all_goals rfl

theorem draws_members {entries : List (Entry Node)} {l : Location}
    (h : Draws (List.flatMap fun e : Entry Node => e.value.numbers) w entries) :
    Draws Node.numbers w (.object l ⟨entries⟩) := by
  intro x hx
  rw [Node.numbers_object] at hx
  exact h x hx

theorem draws_value (h : Value w n refs) : Draws Node.numbers w n := by
  refine Value.byParts (motive := fun w n _ => Draws Node.numbers w n) ?string
    ?textBlock ?number ?id
    ?object ?array h
  case string | textBlock => exact fun _ => draws_none rfl
  case number =>
    intro t value hcontent x hx
    rw [List.mem_singleton.mp hx]
    exact ⟨t, List.mem_singleton_self t, hcontent⟩
  case id => exact fun _ => draws_none (numbers_meaning _ _)
  case object =>
    intro l r g w entries refs _ _ hm _
    have hentries : Draws (List.flatMap fun e : Entry Node => e.value.numbers) w entries :=
      hm.draws fun _ _ _ he => he.draws fun _ _ _ h => h
    exact (draws_members hentries).mono fun t ht => by simp [ht]
  case array =>
    intro l r g w items refs _ _ hm _ x hx
    rw [Node.numbers_array] at hx
    exact (hm.draws fun _ _ _ h => h).mono (fun t ht => by simp [ht]) x hx

theorem draws_body {l : Location} (h : Body l w n refs) : Draws Node.numbers w n := by
  cases h with
  | object _ hv | array _ hv => exact draws_value hv
  | textBlock | string => exact draws_none rfl
  | number hcontent =>
    intro x hx
    rw [List.mem_singleton.mp hx]
    exact ⟨_, List.mem_singleton_self _, hcontent⟩
  | name => exact draws_none (numbers_meaning _ _)
  | members hm =>
    exact draws_members (hm.draws fun _ _ _ he => he.draws fun _ _ _ hv => draws_value hv)

theorem draws_trait {t : ShapeTraits.Trait} (h : Trait w t refs) :
    Draws (fun t => t.value.numbers) w t := by
  cases h with
  | bare | empty => exact draws_none rfl
  | value _ _ _ _ hb => exact (draws_body hb).mono fun t ht => by simp [ht]

theorem draws_traits {ts : List ShapeTraits.Trait} (h : Traits w ts refs) :
    Draws (List.flatMap fun t => t.value.numbers) w ts := by
  cases h with
  | one ht =>
    intro x hx
    rw [List.flatMap_singleton] at hx
    exact draws_trait ht x hx
  | block _ _ hm =>
    exact (hm.draws fun _ _ _ ht => draws_trait ht).mono fun t ht => by simp [ht]

theorem draws_statement {s : Apply} (h : Statement w s refs) : Draws Apply.numbers w s := by
  cases h with
  | mk _ _ _ _ _ _ hts => exact (draws_traits hts).mono fun t ht => by simp [ht]

end Grammar

end ShapeTraits
