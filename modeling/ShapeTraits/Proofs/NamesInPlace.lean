-- Every name left for later stands in what was read. The strings in the values of a document
-- are followed back to the tokens they come from: those that come from names are the names
-- left for later, one by one, and all the others are literals.
import Mathlib
import ShapeTraits.Proofs.DocumentReading
import ShapeTraits.Token.Lexer

namespace ShapeTraits

open Cursor Grammar

/-! ## The strings in values -/

namespace Node

mutual

/-- The strings in a value and where they stand, in the order in which they are written. -/
def located : Node → List Reference
  | string l text => [⟨text, l⟩]
  | array _ items => locatedOfItems items
  | object _ ⟨entries⟩ => locatedOfMembers entries
  | null _ | boolean _ _ | number _ _ => []

def locatedOfItems : List Node → List Reference
  | [] => []
  | n :: rest => located n ++ locatedOfItems rest

def locatedOfMembers : List (Entry Node) → List Reference
  | [] => []
  | ⟨_, _, n⟩ :: rest => located n ++ locatedOfMembers rest

end

@[simp] theorem located_array (l : Location) (items : List Node) :
    (array l items).located = items.flatMap located := by
  rw [located]
  induction items with
  | nil => rfl
  | cons n rest ih => rw [locatedOfItems, ih, List.flatMap_cons]

@[simp] theorem located_object (l : Location) (entries : List (Entry Node)) :
    (object l ⟨entries⟩).located = entries.flatMap (·.value.located) := by
  rw [located]
  induction entries with
  | nil => rfl
  | cons e rest ih => rw [locatedOfMembers, ih, List.flatMap_cons]

/-- A name is a string where it is left for later. -/
theorem located_meaning (id : Bytes) (l : Location) : (meaning id l).located = leaves id l := by
  by_cases h : id ∈ keywords
  · rw [leaves, if_pos h]
    simp only [keywords, List.mem_cons, List.not_mem_nil, or_false] at h
    rcases h with rfl | rfl | rfl
    · rfl
    · rfl
    · rfl
  · rw [(keyword?_of_not_mem h l).2, leaves, if_neg h, located]

end Node

/-- The strings in the values of all traits of some statements. -/
def Apply.located (statements : List Apply) : List Reference :=
  statements.flatMap fun s => s.traits.flatMap fun t => t.value.located

/-! ## Where they come from -/

/-- The tokens that a string is read from: a literal, or an id. -/
inductive Origin where
  | literal (t : Token)
  | name (first : Token) (more : List Token)

namespace Origin

def tokens : Origin → List Token
  | literal t => [t]
  | name first more => first :: more

def start : Origin → Location
  | literal t => t.start
  | name first _ => first.start

def isName : Origin → Bool
  | literal _ => false
  | name _ _ => true

/-- A literal says its text, and an id that is no keyword says itself. -/
def Says : Origin → Bytes → Prop
  | literal t, text => t.content = .string text ∨ t.content = .textBlock text
  | name first more, text => Id (first :: more) text ∧ text ∉ keywords

end Origin

/-- Strings with the tokens that they come from, which are all different ones and in the same
order. Each string stands where its tokens begin, or it is the whole value of a trait and
stands at its sign. The names are just the strings that come from ids. -/
structure Traced (w : List Token) (strings names : List Reference)
    (found : List (Origin × Reference)) :
    Prop where
  strings : found.map Prod.snd = strings
  names : (found.filter (·.1.isName)).map Prod.snd = names
  origin : ∀ p ∈ found, p.1.Says p.2.name
  location : ∀ p ∈ found, p.2.location = p.1.start ∨ ∃ sign ∈ w,
    sign.kind = .at ∧ p.2.location = sign.start
  inOrder : (found.flatMap (·.1.tokens)).Sublist w

/-- Among more tokens there are more signs. -/
theorem Traced.widen {v w : List Token} {strings names : List Reference}
    {found : List (Origin × Reference)}
    (h : Traced v strings names found) (hsub : v ⊆ w) : ∀ p ∈ found,
    p.2.location = p.1.start ∨ ∃ sign ∈ w, sign.kind = .at ∧ p.2.location = sign.start :=
  fun p hp => (h.location p hp).imp_right fun ⟨sign, hsign, hl⟩ => ⟨sign, hsub hsign, hl⟩

/-- Some strings come from some tokens, those left for later from ids. -/
def Traces (w : List Token) (strings names : List Reference) : Prop :=
  ∃ found, Traced w strings names found

namespace Traces

variable {v w : List Token} {strings names strings' names' : List Reference} {l : Location}
    {text : Bytes}

theorem none (w : List Token) : Traces w [] [] :=
  ⟨[], rfl, rfl, List.forall_mem_nil _, List.forall_mem_nil _, List.nil_sublist w⟩

theorem mono (h : Traces v strings names) (hsub : v.Sublist w) : Traces w strings names := by
  obtain ⟨found, hfound⟩ := h
  exact ⟨found, hfound.strings, hfound.names, hfound.origin, hfound.widen hsub.subset,
    hfound.inOrder.trans hsub⟩

theorem append (h : Traces v strings names) (h' : Traces w strings' names') :
    Traces (v ++ w) (strings ++ strings') (names ++ names') := by
  obtain ⟨found, hfound⟩ := h
  obtain ⟨found', hfound'⟩ := h'
  refine ⟨found ++ found', ?_, ?_, ?_, ?_, ?_⟩
  · rw [List.map_append, hfound.strings, hfound'.strings]
  · rw [List.filter_append, List.map_append, hfound.names, hfound'.names]
  · exact List.forall_mem_append.mpr ⟨hfound.origin, hfound'.origin⟩
  · exact List.forall_mem_append.mpr ⟨hfound.widen (List.subset_append_left v w),
      hfound'.widen (List.subset_append_right v w)⟩
  · rw [List.flatMap_append]
    exact hfound.inOrder.append hfound'.inOrder

theorem literal {t : Token} (ht : t.content = .string text ∨ t.content = .textBlock text)
    (hmem : [t].Sublist w)
    (hl : l = t.start ∨ ∃ sign ∈ w, sign.kind = .at ∧ l = sign.start) : Traces w [⟨text, l⟩] [] :=
  ⟨[(.literal t, ⟨text, l⟩)], rfl, rfl, List.forall_mem_singleton.mpr ht,
    List.forall_mem_singleton.mpr hl, hmem⟩

theorem id {first : Token} {more : List Token} (hid : Id (first :: more) text)
    (hmem : (first :: more).Sublist w)
    (hl : l = first.start ∨ ∃ sign ∈ w, sign.kind = .at ∧ l = sign.start) :
    Traces w (meaning text l).located (leaves text l) := by
  rw [Node.located_meaning, leaves]
  by_cases h : text ∈ keywords
  · rw [if_pos h]
    exact none w
  · rw [if_neg h]
    refine ⟨[(.name first more, ⟨text, l⟩)], rfl, rfl, List.forall_mem_singleton.mpr ⟨hid, h⟩,
      List.forall_mem_singleton.mpr hl, ?_⟩
    rwa [List.flatMap_singleton]

end Traces

/-! ## Along the grammar -/

namespace Grammar

variable {w : List Token} {n : Node} {names : List Reference}

/-- What comes from many things comes from each in turn. -/
theorem Many.traces {α : Type} {P : Form α} {as : List α} {f : α → List Reference}
    (h : Many P w as names)
    (hP : ∀ v a r, P v a r → Traces v (f a) r) : Traces w (as.flatMap f) names := by
  induction h with
  | nil => exact .none []
  | cons first gap _ ih =>
    rw [List.flatMap_cons]
    exact ((hP _ _ _ first).mono (List.sublist_append_left _ _)).append ih

theorem Member.traces {V : Form Node} {e : Entry Node} (h : Member V w e names)
    (hV : ∀ v n r, V v n r → Traces v n.located r) : Traces w e.value.located names := by
  cases h with
  | @mk k colon g h v key n refs isKey before isColon behind value =>
    refine (hV _ _ _ value).mono ?_
    have hsuffix : v <:+ k :: (g ++ colon :: (h ++ v)) := ⟨k :: (g ++ colon :: h), by simp⟩
    exact hsuffix.sublist

theorem sublist_enclosed (l : Token) (g w : List Token) (r : Token) :
    w.Sublist (l :: (g ++ w ++ [r])) :=
  ((List.sublist_append_right g w).trans (List.sublist_append_left _ [r])).cons l

theorem Value.traces (h : Value w n names) : Traces w n.located names := by
  refine Value.byParts (motive := fun w n names => Traces w n.located names) ?string
    ?textBlock ?number ?id
    ?object ?array h
  case string =>
    intro t text hcontent
    exact .literal (.inl hcontent) (List.Sublist.refl _) (.inl rfl)
  case textBlock =>
    intro t text hcontent
    exact .literal (.inr hcontent) (List.Sublist.refl _) (.inl rfl)
  case number =>
    intro t value _
    exact .none _
  case id =>
    intro t w text hid
    exact .id hid (List.Sublist.refl _) (.inl rfl)
  case object =>
    intro l r g w entries names _ _ hm _
    rw [Node.located_object]
    exact (hm.traces fun _ _ _ he => he.traces fun _ _ _ hn => hn).mono (sublist_enclosed l g w r)
  case array =>
    intro l r g w items names _ _ hm _
    rw [Node.located_array]
    exact (hm.traces fun _ _ _ hn => hn).mono (sublist_enclosed l g w r)

/-- The value of a trait that is one token stands at the sign before it. -/
theorem Body.traces {sign : Token} (hsign : sign.kind = .at) (h : Body sign.start w n names) :
    Traces (sign :: w) n.located names := by
  have hplace : ∃ s ∈ sign :: w, s.kind = .at ∧ sign.start = s.start :=
    ⟨sign, List.mem_cons_self, hsign, rfl⟩
  have htail : w.Sublist (sign :: w) := List.sublist_cons_self sign w
  cases h with
  | object _ value | array _ value => exact value.traces.mono htail
  | textBlock isBlock => exact .literal (.inr isBlock) htail (.inr hplace)
  | number => exact .none _
  | string isString => exact .literal (.inl isString) htail (.inr hplace)
  | name isName => exact .id (.single (Token.kind_eq_identifier.mpr isName)) htail (.inr hplace)
  | members hm =>
    rw [Node.located_object]
    exact (hm.traces fun _ _ _ he => he.traces fun _ _ _ hn => hn.traces).mono htail

theorem Trait.traces {t : ShapeTraits.Trait} (h : Trait w t names) :
    Traces w t.value.located names := by
  cases h with
  | bare | empty => exact .none _
  | @value sign v name l g b h r n refs isSign isId opens gap body behind closes =>
    refine (body.traces isSign).mono (List.Sublist.cons_cons sign ?_)
    have hinfix : b <:+: v ++ l :: (g ++ b ++ h ++ [r]) := ⟨v ++ l :: g, h ++ [r], by simp⟩
    exact hinfix.sublist

theorem Traits.traces {ts : List ShapeTraits.Trait} (h : Traits w ts names) :
    Traces w (ts.flatMap fun t => t.value.located) names := by
  cases h with
  | one trait =>
    rw [List.flatMap_singleton]
    exact trait.traces
  | block _ _ traits _ =>
    exact (traits.traces fun _ _ _ ht => ht.traces).mono (sublist_enclosed _ _ _ _)

theorem Statement.traces {s : Apply} (h : Statement w s names) :
    Traces w (s.traits.flatMap fun t => t.value.located) names := by
  cases h with
  | @mk first blank g v h ts target traits refs isName isKeyword isBlank before isId
      behind isTraits =>
    refine isTraits.traces.mono ?_
    have hsuffix : ts <:+ first :: blank :: (g ++ v ++ h ++ ts) :=
      ⟨first :: blank :: (g ++ v ++ h), by simp⟩
    exact hsuffix.sublist

end Grammar

/-- What is passed before the end are the first of the tokens. -/
theorem Cursor.passed_before_the_end {tokens w rest : List Token} {limit : Nat}
    (h : (ofTokens tokens limit).ahead = w ++ rest) (hw : ∀ t ∈ w, t.kind ≠ .eof) :
    w <+: tokens := by
  rw [ofTokens] at h
  split at h
  · exact ⟨rest, h.symm⟩
  · have hprefix : w <+: tokens ++ [.missingEof] := ⟨rest, h.symm⟩
    refine (List.prefix_concat_iff.mp hprefix).resolve_left fun hall => ?_
    exact hw .missingEof (hall ▸ List.mem_append_right tokens List.mem_cons_self) rfl

/-! ## The laws -/

/-- Of a document that is read, the names left for later are just those of the strings in its
values that come from ids, in the same order, with the same texts and at the same places;
all other strings come from literals. -/
theorem the_names_left_for_later_are_the_strings_from_names {tokens : List Token} {limit : Nat}
    {statements : List Apply} {d : Cursor}
    (h : Apply.readAll .forward (ofTokens tokens limit) = (.ok statements, d)) :
    ∃ found, Traced tokens (Apply.located statements) d.references found := by
  obtain ⟨-, g, w, names, -, hm, -, hmove⟩ := Apply.readAll_sound rfl h
  have hnames : d.references = names := hmove.references.trans (List.nil_append names)
  have hw : Traces w (Apply.located statements) names := hm.traces fun _ _ _ hs => hs.traces
  rw [hnames]
  exact hw.mono
    ((List.sublist_append_right g w).trans (passed_before_the_end hmove.ahead hmove.noEnd).sublist)

/-- Of three strings, the literal is not left for later. The name in the array stands where it
is written, and the name that is a whole value stands at the sign of its trait. -/
theorem two_names_are_left_for_later_and_a_literal_is_not :
    let tokens := (Source.mk [] (utf8 "apply S @t([a, \"b\", true]) apply S @u(c)")).tokens
    let a : Reference := ⟨utf8 "a", ⟨[], 1, 13, 12, 1⟩⟩
    let c : Reference := ⟨utf8 "c", ⟨[], 1, 36, 35, 1⟩⟩
    ∃ statements d, Apply.readAll .forward (ofTokens tokens 64) = (.ok statements, d) ∧
      Apply.located statements = [a, ⟨utf8 "b", ⟨[], 1, 16, 15, 3⟩⟩, c] ∧ d.references = [a, c] ∧
      ∃ found, Traced tokens (Apply.located statements) d.references found := by
  intro tokens a c
  have hview : (Apply.readAll .forward (ofTokens tokens 64)).1.toOption.map Apply.located =
      some [a, ⟨utf8 "b", ⟨[], 1, 16, 15, 3⟩⟩, c] := by decide +kernel
  obtain ⟨statements, hread, hstrings⟩ := Reading.ok_of_view hview
  exact ⟨statements, _, hread, hstrings, by decide +kernel,
    the_names_left_for_later_are_the_strings_from_names hread⟩

end ShapeTraits
