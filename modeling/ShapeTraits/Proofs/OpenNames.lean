-- No reader decides what a bare name means. What is read is a draft in which the names are
-- left open, and which names are asked for does not depend on the answers: any two ways to
-- give names a meaning fill in the same draft.
import Mathlib
import ShapeTraits.Proofs.Composition
import ShapeTraits.Token.Lexer

namespace ShapeTraits

open Cursor Grammar

/-! ## Drafts -/

/-- A value with names that are left open. -/
inductive Draft where
  /-- What stands there whatever names mean. -/
  | written (n : Node)
  | name (asked : Reference)
  | array (location : Location) (items : List Draft)
  | object (location : Location) (members : KeyedList Draft)

namespace Draft

mutual

/-- The value that a draft becomes by answers for its names. -/
def fill (answer : Reference → Node) : Draft → Node
  | written n => n
  | name asked => answer asked
  | array l items => .array l (fillItems answer items)
  | object l ⟨entries⟩ => .object l ⟨fillMembers answer entries⟩

def fillItems (answer : Reference → Node) : List Draft → List Node
  | [] => []
  | t :: rest => fill answer t :: fillItems answer rest

def fillMembers (answer : Reference → Node) : List (Entry Draft) → List (Entry Node)
  | [] => []
  | ⟨k, l, t⟩ :: rest => ⟨k, l, fill answer t⟩ :: fillMembers answer rest

end

mutual

/-- The names that are open, in the order in which they are written. -/
def names : Draft → List Reference
  | written _ => []
  | name asked => [asked]
  | array _ items => namesOfItems items
  | object _ ⟨entries⟩ => namesOfMembers entries

def namesOfItems : List Draft → List Reference
  | [] => []
  | t :: rest => names t ++ namesOfItems rest

def namesOfMembers : List (Entry Draft) → List Reference
  | [] => []
  | ⟨_, _, t⟩ :: rest => names t ++ namesOfMembers rest

end

/-- A member, filled in. -/
def fillEntry (answer : Reference → Node) (e : Entry Draft) : Entry Node :=
  ⟨e.key, e.keyLocation, e.value.fill answer⟩

variable {answer : Reference → Node}

theorem fill_array (l : Location) (items : List Draft) :
    (array l items).fill answer = .array l (items.map (fill answer)) := by
  rw [fill]
  congr
  induction items with
  | nil => rfl
  | cons t rest ih => rw [fillItems, ih, List.map_cons]

theorem fill_object (l : Location) (m : KeyedList Draft) :
    (object l m).fill answer = .object l ⟨m.entries.map (fillEntry answer)⟩ := by
  obtain ⟨entries⟩ := m
  rw [fill]
  congr
  induction entries with
  | nil => rfl
  | cons e rest ih => rw [fillMembers, ih, List.map_cons, fillEntry]

theorem names_array (l : Location) (items : List Draft) :
    (array l items).names = items.flatMap names := by
  rw [names]
  induction items with
  | nil => rfl
  | cons t rest ih => rw [namesOfItems, ih, List.flatMap_cons]

theorem names_object (l : Location) (m : KeyedList Draft) :
    (object l m).names = m.entries.flatMap (·.value.names) := by
  obtain ⟨entries⟩ := m
  rw [names]
  induction entries with
  | nil => rfl
  | cons e rest ih => rw [namesOfMembers, ih, List.flatMap_cons]

end Draft

/-- A trait whose value is a draft. -/
structure Trait.Draft where
  name : Bytes
  value : ShapeTraits.Draft
  kind : Trait.Kind
  location : Location

/-- A statement whose traits are drafts. -/
structure Apply.Draft where
  target : Bytes
  location : Location
  traits : List Trait.Draft

/-- What is left open in drafts of things, and how it is filled in. -/
structure Blanks (δ α : Type) where
  fill : (Reference → Node) → δ → α
  names : δ → List Reference

namespace Blanks

variable {δ α : Type}

/-- Nothing, behind names that were open before. -/
def given (before : List Reference) : Blanks α α := ⟨fun _ a => a, fun _ => before⟩

/-- The same, behind other names. -/
def behind (before : List Reference) (S : Blanks δ α) : Blanks δ α :=
  ⟨S.fill, fun t => before ++ S.names t⟩

/-- Those of many things are those of each. -/
def list (S : Blanks δ α) : Blanks (List δ) (List α) :=
  ⟨fun answer ts => ts.map (S.fill answer), fun ts => ts.flatMap S.names⟩

def value : Blanks Draft Node := ⟨Draft.fill, Draft.names⟩

def members : Blanks (KeyedList Draft) (KeyedList Node) :=
  ⟨fun answer m => ⟨m.entries.map (Draft.fillEntry answer)⟩,
    fun m => m.entries.flatMap (·.value.names)⟩

def trait : Blanks Trait.Draft Trait :=
  ⟨fun answer t => ⟨t.name, t.value.fill answer, t.kind, t.location⟩, fun t => t.value.names⟩

def statement : Blanks Apply.Draft Apply :=
  ⟨fun answer s => ⟨s.target, s.location, trait.list.fill answer s.traits⟩,
    fun s => trait.list.names s.traits⟩

end Blanks

/-! ## What a resolver does -/

namespace Resolver

/-- Whether a name is kept. -/
def keeps : Resolver → Reference → Bool
  | forward, asked => (keyword? asked.name asked.location).isNone
  | answering _, _ => true

theorem keeps_forward :
    forward.keeps = fun asked : Reference => decide (asked.name ∉ keywords) := by
  funext asked
  by_cases h : asked.name ∈ keywords
  · rw [keeps, Node.keyword?_of_mem h, decide_eq_false (not_not_intro h)]
    rfl
  · rw [keeps, (Node.keyword?_of_not_mem h _).1, decide_eq_true h]
    rfl

theorem forward_of_mem {name : Bytes} (h : name ∈ keywords) (l : Location) (c : Cursor) :
    forward.resolve name l c = (.ok (meaning name l), c) := by
  rw [resolve, Node.keyword?_of_mem h]

theorem forward_of_not_mem {name : Bytes} (h : name ∉ keywords) (l : Location) (c : Cursor) :
    forward.resolve name l c = (.ok (meaning name l), keep (c.note (.deferred name l)) name l) := by
  obtain ⟨hnone, hmeaning⟩ := Node.keyword?_of_not_mem h l
  rw [resolve, hnone, hmeaning]

end Resolver

/-- With other names for later and other events. -/
def Cursor.withRecords (refs : List Reference) (events : List Log.Event) (c : Cursor) : Cursor :=
  { c with references := refs, events := events }

/-- Where a reading with any resolver ends, and with which answer. Each resolver keeps some
of the names that were asked for. -/
def EndsAt {α : Type} (read : Resolver → Reading α) (c : Cursor)
    (answer : Resolver → Except ParseError α) (d : Cursor) (asked : List Reference) : Prop :=
  ∀ r refs events, ∃ events', read r (c.withRecords refs events) =
    (answer r, d.withRecords (refs ++ asked.filter r.keeps) events')

/-- From a cursor the same draft, or the same error, comes of a reading with any resolver. The
names open in the draft are those asked for, behind those that were open before. -/
inductive Drafted {δ α : Type} (S : Blanks δ α) (before : List Reference)
    (read : Resolver → Reading α) (c : Cursor) : Prop
  | ok {t d asked} (names : S.names t = before ++ asked)
      (ends : EndsAt read c (fun r => .ok (S.fill r.answer t)) d asked) : Drafted S before read c
  | error {e d asked} (ends : EndsAt read c (fun _ => .error e) d asked) : Drafted S before read c

/-- A reading that leaves names open, wherever it begins. -/
def Drafts {δ α : Type} (S : Blanks δ α) (before : List Reference)
    (read : Resolver → Reading α) : Prop :=
  ∀ c, Drafted S before read c

section EndsAt

variable {α β : Type} {read : Resolver → Reading α} {next rest : Resolver → Reading β}
    {c d e : Cursor}
  {answer : Resolver → Except ParseError α} {answer' : Resolver → Except ParseError β}
  {asked later : List Reference}

theorem EndsAt.found (h : EndsAt read c answer d asked) (r : Resolver) : ∃ events,
    read r c = (answer r, d.withRecords (c.references ++ asked.filter r.keeps) events) :=
  h r c.references c.events

/-- A step that asks for nothing. -/
theorem EndsAt.quiet (h : ∀ r refs events, ∃ events',
    read r (c.withRecords refs events) = (answer r, d.withRecords refs events')) :
    EndsAt read c answer d [] := by
  intro r refs events
  rw [List.filter_nil, List.append_nil]
  exact h r refs events

/-- What begins where another reading ends. -/
theorem EndsAt.trans (h : EndsAt read c answer d asked) (h' : EndsAt rest d answer' e later)
    (hnext : ∀ r refs events refs' events',
      read r (c.withRecords refs events) = (answer r, d.withRecords refs' events') →
      next r (c.withRecords refs events) = rest r (d.withRecords refs' events')) :
    EndsAt next c answer' e (asked ++ later) := by
  intro r refs events
  obtain ⟨events', hread⟩ := h r refs events
  obtain ⟨events'', hrest⟩ := h' r (refs ++ asked.filter r.keeps) events'
  refine ⟨events'', ?_⟩
  rw [hnext r refs events _ events' hread, hrest, List.filter_append, List.append_assoc]

/-- What ends like another reading, up to a change of the cursor. -/
theorem EndsAt.imp (h : EndsAt read c answer d asked)
    (hnext : ∀ r refs events refs' events',
      read r (c.withRecords refs events) = (answer r, d.withRecords refs' events') →
      ∃ events'', next r (c.withRecords refs events) = (answer' r, e.withRecords refs' events'')) :
    EndsAt next c answer' e asked := by
  intro r refs events
  obtain ⟨events', hread⟩ := h r refs events
  exact hnext r refs events _ events' hread

end EndsAt

namespace Drafts

variable {δ ε α β : Type} {S : Blanks δ α} {T : Blanks ε β} {before : List Reference}

/-! ## Single steps -/

/-- A step that has nothing to do with names and resolvers. -/
theorem of_step {step : Reading α} (answer : Cursor → α) (f : Cursor → Cursor)
    (h : ∀ c refs events, ∃ events', step (c.withRecords refs events) =
      (.ok (answer c), (f c).withRecords refs events')) :
    Drafts (.given before) before fun _ => step :=
  fun c =>
    .ok (t := answer c) (List.append_nil before).symm (.quiet fun _ refs events => h c refs events)

theorem look (see : Token → α) :
    Drafts (.given before) before fun _ c => (.ok (see c.current), c) :=
  of_step (fun c => see c.current) id fun _ _ events => ⟨events, rfl⟩

theorem current : Drafts (.given before) before fun _ => Reading.current := look id

theorem kind : Drafts (.given before) before fun _ => Reading.kind := look Token.kind

theorem location : Drafts (.given before) before fun _ => Reading.location := look Token.start

theorem note (e : Log.Event) : Drafts (.given before) before fun _ => Reading.note e :=
  of_step (fun _ => ()) id fun _ _ events => ⟨events ++ [e], rfl⟩

theorem take_withRecords (c : Cursor) (refs : List Reference) (events : List Log.Event)
    (t : Token) :
    ∃ events', (c.withRecords refs events).take t = (c.take t).withRecords refs events' := by
  rw [take, take]
  split
  · exact ⟨events, rfl⟩
  · split
    · exact ⟨events, rfl⟩
    · rw [dropDocs, dropDocs]
      have hdocs : (c.withRecords refs events).docs = c.docs := rfl
      rw [hdocs]
      split
      · exact ⟨events, rfl⟩
      · exact ⟨_, rfl⟩

theorem advance_withRecords (c : Cursor) (refs : List Reference) (events : List Log.Event) :
    ∃ events', (c.withRecords refs events).advance = c.advance.withRecords refs events' := by
  have hahead : (c.withRecords refs events).ahead = c.ahead := rfl
  rw [advance_eq, advance_eq, hahead]
  cases c.ahead with
  | nil => exact ⟨events, rfl⟩
  | cons t rest =>
    dsimp only
    split
    · exact ⟨events, rfl⟩
    · obtain ⟨events', htake⟩ := take_withRecords c refs events t
      exact ⟨events', by rw [htake]; rfl⟩

theorem skip_withRecords (among : Token.Kind → Bool) (c : Cursor) (refs : List Reference)
    (events : List Log.Event) :
    ∃ events', (c.withRecords refs events).skip among =
      (c.skip among).withRecords refs events' := by
  fun_induction Cursor.skip among c generalizing refs events with
  | case1 c hend => exact ⟨events, by rw [Cursor.skip]; exact if_pos hend⟩
  | case2 c hend hk ih =>
    obtain ⟨events', hadvance⟩ := advance_withRecords c refs events
    obtain ⟨events'', hskip⟩ := ih refs events'
    refine ⟨events'', ?_⟩
    rw [Cursor.skip, if_neg (by exact hend), if_pos (by exact hk), hadvance, hskip]
  | case3 c hend hk =>
    refine ⟨events, ?_⟩
    rw [Cursor.skip, if_neg (by exact hend), if_neg (by exact hk)]

theorem advance : Drafts (.given before) before fun _ => Reading.advance :=
  of_step (fun _ => ()) Cursor.advance fun c refs events =>
    (advance_withRecords c refs events).imp fun _ h => congrArg (Prod.mk _) h

theorem skip (among : Token.Kind → Bool) :
    Drafts (.given before) before fun _ => Reading.change (Cursor.skip among) :=
  of_step (fun _ => ()) (Cursor.skip among) fun c refs events =>
    (skip_withRecords among c refs events).imp fun _ h => congrArg (Prod.mk _) h

theorem skipGap : Drafts (.given before) before fun _ => Reading.skipGap := skip _

theorem skipTrivia : Drafts (.given before) before fun _ => Reading.skipTrivia := skip _

theorem refuse (cause : Token → ParseError.Cause) :
    Drafts S before fun _ => Reading.refuseCurrent cause :=
  fun c => .error (e := ⟨cause c.current, c.location⟩) (.quiet fun _ _ events => ⟨events, rfl⟩)

theorem refuseAs (e : ParseError) : Drafts S before fun _ => Reading.refuse e :=
  fun _ => .error (.quiet fun _ _ events => ⟨events, rfl⟩)

theorem unexpected (kinds : List Token.Kind) :
    Drafts S before fun _ => Reading.unexpected kinds := by
  rw [Reading.unexpected_eq]
  exact refuse _

theorem pure {a : Resolver → α} (t : δ) (ha : ∀ r, a r = S.fill r.answer t)
    (h : S.names t = before) :
    Drafts S before fun r => Pure.pure (a r) :=
  fun _ => .ok (h.trans (List.append_nil before).symm)
    (.quiet fun r _ events => ⟨events, congrArg (fun a => (Except.ok a, _)) (ha r)⟩)

theorem done (a : α) : Drafts (.given before) before fun _ => Pure.pure a :=
  pure a (fun _ => rfl) rfl

/-- A name is asked for, and not what it means. -/
theorem resolve (name : Bytes) (l : Location) : Drafts .value [] fun r => r.resolve name l := by
  intro c
  refine .ok (t := .name ⟨name, l⟩) (d := c) rfl fun r refs events => ?_
  cases r with
  | answering answer => exact ⟨events, rfl⟩
  | forward =>
    by_cases h : name ∈ keywords
    · refine ⟨events, ?_⟩
      have hkeeps : ¬Resolver.forward.keeps ⟨name, l⟩ = true := by
        rw [Resolver.keeps_forward, decide_eq_true_eq]
        exact not_not_intro h
      rw [List.filter_cons_of_neg hkeeps, List.filter_nil, List.append_nil]
      exact Resolver.forward_of_mem h l _
    · refine ⟨events ++ [.deferred name l], ?_⟩
      have hkeeps : Resolver.forward.keeps ⟨name, l⟩ = true := by
        rw [Resolver.keeps_forward, decide_eq_true_eq]
        exact h
      rw [List.filter_cons_of_pos hkeeps, List.filter_nil]
      exact Resolver.forward_of_not_mem h l _

/-! ## Steps made of steps -/

theorem bind {read : Resolver → Reading α} {next : Resolver → α → Reading β}
    (hread : Drafts S before read)
    (hnext : ∀ t, Drafts T (S.names t) fun r => next r (S.fill r.answer t)) :
    Drafts T before fun r => read r >>= next r := by
  intro c
  cases hread c with
  | error ends =>
    exact .error (ends.imp fun _ _ _ _ events' h => ⟨events', Reading.bind_of_error h⟩)
  | @ok t d asked names ends =>
    cases hnext t d with
    | error ends' => exact .error (ends.trans ends' fun _ _ _ _ _ h => Reading.bind_of_ok h)
    | ok names' ends' =>
      refine .ok ?_ (ends.trans ends' fun _ _ _ _ _ h => Reading.bind_of_ok h)
      rw [names', names, List.append_assoc]

/-- Behind a step that leaves no more names open. -/
theorem seq {read : Resolver → Reading α} {next : Resolver → α → Reading β}
    (hread : Drafts (.given before) before read) (hnext : ∀ a, Drafts T before fun r => next r a) :
    Drafts T before fun r => read r >>= next r := hread.bind hnext

/-- Behind other names that are open. -/
theorem behind {read : Resolver → Reading α} (h : Drafts S [] read) (earlier : List Reference) :
    Drafts (S.behind earlier) earlier read := by
  intro c
  cases h c with
  | error ends => exact .error ends
  | ok names ends => exact .ok (congrArg (earlier ++ ·) names) ends

theorem ite {p : Prop} [Decidable p] {yes no : Resolver → Reading α} (hyes : Drafts S before yes)
    (hno : Drafts S before no) : Drafts S before fun r => if p then yes r else no r := by
  by_cases h : p
  · simpa only [if_pos h] using hyes
  · simpa only [if_neg h] using hno

theorem expect (kinds : List Token.Kind) :
    Drafts (.given before) before fun _ => Reading.expect kinds := by
  rw [Reading.expect_eq]
  exact kind.seq fun k => ite (done ()) (unexpected kinds)

theorem levels {read : Resolver → Nat → Reading α} (h : ∀ k, Drafts S before fun r => read r k) :
    Drafts S before fun r c => read r (c.limit - c.depth) c := by
  intro c
  cases h (c.limit - c.depth) c with
  | error ends => exact .error fun r refs events => ends r refs events
  | ok names ends => exact .ok names fun r refs events => ends r refs events

theorem nested {read : Resolver → Reading α} (h : Drafts S before read) :
    Drafts S before fun r => Reading.nested (read r) := by
  intro c
  rcases Nat.lt_or_ge c.depth c.limit with hlt | hge
  · have hleave {r : Resolver} {refs refs' : List Reference} {events events' : List Log.Event}
        {answer : Except ParseError α} {d : Cursor}
        (hread : read r (c.enter.withRecords refs events) = (answer, d.withRecords refs' events')) :
        Reading.nested (read r) (c.withRecords refs events) =
          (answer, d.leave.withRecords refs' events') := by
      have henter : (c.withRecords refs events).enter = c.enter.withRecords refs events := rfl
      rw [Reading.nested_of_lt (c := c.withRecords refs events) hlt, henter, hread]
      rfl
    cases h c.enter with
    | error ends => exact .error fun r refs events => (ends r refs events).imp fun _ => hleave
    | ok names ends => exact .ok names fun r refs events => (ends r refs events).imp fun _ => hleave
  · exact .error (e := c.enter.tooDeep) (d := c.enter.leave)
      (.quiet fun _ _ events => ⟨events, Reading.nested_of_le hge⟩)

theorem thenGap {read : Resolver → Reading α} (h : Drafts S before read) :
    Drafts S before fun r => (read r).andAlways Cursor.skipGap := by
  intro c
  have hgap {r : Resolver} {refs events refs' events' : _} {answer : Except ParseError α}
      {d : Cursor}
      (hread : read r (c.withRecords refs events) = (answer, d.withRecords refs' events')) :
      ∃ events'', (read r).andAlways Cursor.skipGap (c.withRecords refs events) =
        (answer, d.skipGap.withRecords refs' events'') := by
    obtain ⟨events'', hskip⟩ := skip_withRecords Token.Kind.isGap d refs' events'
    refine ⟨events'', ?_⟩
    rw [Reading.andAlways_apply, hread]
    exact congrArg (Prod.mk _) hskip
  cases h c with
  | error ends => exact .error (ends.imp fun _ _ _ _ _ => hgap)
  | ok names ends => exact .ok names (ends.imp fun _ _ _ _ _ => hgap)

/-- What a loop has gathered so far has names of its own, before which no others are open. -/
theorem untilKind {stop : Token.Kind → Bool} {step : Resolver → α → Reading α}
    (hstep : ∀ t, Drafts S (S.names t) fun r => step r (S.fill r.answer t)) (t : δ) :
    Drafts S (S.names t) fun r => Reading.untilKind stop (step r) (S.fill r.answer t) := by
  intro c
  induction hn : c.ahead.length using Nat.strongRecOn generalizing t c with
  | ind n ih =>
    subst hn
    by_cases hstop : stop c.kind = true
    · exact .ok (List.append_nil _).symm (.quiet fun _ _ events =>
        ⟨events, Reading.untilKind_stop hstop⟩)
    rw [Bool.not_eq_true] at hstop
    cases hstep t c with
    | error ends =>
      exact .error (ends.imp fun _ _ _ _ events' h => ⟨events', Reading.untilKind_error hstop h⟩)
    | @ok u d asked names ends =>
      by_cases hlt : d.ahead.length < c.ahead.length
      · cases ih _ hlt u d rfl with
        | error ends' =>
          exact .error (ends.trans ends' fun _ _ _ _ _ h => Reading.untilKind_step hstop h hlt)
        | ok names' ends' =>
          refine .ok ?_ (ends.trans ends' fun _ _ _ _ _ h => Reading.untilKind_step hstop h hlt)
          rw [names', names, List.append_assoc]
      · exact .ok names (ends.imp fun _ _ _ _ events' h =>
          ⟨events', Reading.untilKind_last hstop h hlt⟩)

/-- A loop that leaves no names open. -/
theorem repeatUntil {stop : Token.Kind → Bool} {step : α → Reading α}
    (hstep : ∀ a, Drafts (.given before) before fun _ => step a) (a : α) :
    Drafts (.given before) before fun _ => Reading.untilKind stop step a :=
  untilKind (S := .given before) hstep a

theorem gather {read : Resolver → Reading α} (h : Drafts S [] read) (ts : List δ) :
    Drafts S.list (S.list.names ts) fun r => Reading.gather (read r) (S.list.fill r.answer ts) := by
  refine (h.behind _).bind fun t => skipGap.seq fun _ => pure (ts ++ [t]) (fun r => ?_) ?_
  · show ts.map _ ++ [t].map _ = (ts ++ [t]).map _
    rw [List.map_append]
    rfl
  · show (ts ++ [t]).flatMap S.names = ts.flatMap S.names ++ S.names t
    rw [List.flatMap_append, List.flatMap_singleton]

/-! ## Ids and members -/

theorem name (id : Bytes) : Drafts (.given before) before fun _ => ShapeId.name id :=
  (expect _).seq fun _ => current.seq fun _ => advance.seq fun _ => done _

theorem part (sign : Token.Kind) (mark id : Bytes) :
    Drafts (.given before) before fun _ => ShapeId.part sign mark id :=
  kind.seq fun _ => ite (advance.seq fun _ => name _) (done _)

theorem shapeId : Drafts (.given before) before fun _ => ShapeId.read :=
  (name _).seq fun _ => (repeatUntil (part _ _) _).seq fun _ => (part _ _ _).seq fun _ => part _ _ _

theorem key (expected : List Token.Kind) :
    Drafts (.given before) before fun _ => Member.key expected := by
  refine current.seq fun t => ?_
  cases t.content with
  | string | identifier => exact done _
  | _ => exact unexpected _

theorem colon : Drafts (.given before) before fun _ => Member.colon :=
  skipGap.seq fun _ => (expect _).seq fun _ => advance.seq fun _ => skipGap

/-- Which keys there are does not depend on what names stand for. -/
theorem contains_fill (answer : Reference → Node) (m : KeyedList Draft) (key : Bytes) :
    (Blanks.members.fill answer m).contains key = m.contains key := by
  show (List.find? _ (m.entries.map _)).isSome = (List.find? _ m.entries).isSome
  rw [List.find?_map, Option.isSome_map]
  rfl

theorem insert (owner : MemberOwner) (key : Bytes × Location) (m : KeyedList Draft) (n : Draft) :
    Drafts .members ((Blanks.value.behind (Blanks.members.names m)).names n) fun r =>
      Member.insert owner key (Blanks.members.fill r.answer m) (Blanks.value.fill r.answer n) := by
  have hfill (r : Resolver) : Blanks.members.fill r.answer ⟨m.entries ++ [⟨key.1, key.2, n⟩]⟩ =
      ⟨(Blanks.members.fill r.answer m).entries ++ [⟨key.1, key.2, n.fill r.answer⟩]⟩ :=
    congrArg KeyedList.mk List.map_append
  have hinsert (r : Resolver) :
      Member.insert owner key (Blanks.members.fill r.answer m) (Blanks.value.fill r.answer n) =
        if m.contains key.1 = true then Reading.refuse ⟨.duplicateMember owner key.1, key.2⟩
        else Reading.skipGap >>= fun _ =>
          Pure.pure (Blanks.members.fill r.answer ⟨m.entries ++ [⟨key.1, key.2, n⟩]⟩) := by
    rw [Member.insert, KeyedList.insert?, contains_fill]
    by_cases h : m.contains key.1 = true
    · rw [if_pos h, if_pos h]
    · rw [if_neg h, if_neg h, hfill]
      rfl
  simp only [hinsert]
  refine ite (refuseAs _) (skipGap.seq fun _ => pure _ (fun _ => rfl) ?_)
  show (m.entries ++ [_]).flatMap _ = m.entries.flatMap _ ++ n.names
  rw [List.flatMap_append, List.flatMap_singleton]

theorem member (owner : MemberOwner) (expected : List Token.Kind) {value : Resolver → Reading Node}
    (h : Drafts .value [] value) (m : KeyedList Draft) :
    Drafts .members (Blanks.members.names m) fun r =>
      Member.read owner expected (value r) (Blanks.members.fill r.answer m) :=
  (key _).seq fun _ => advance.seq fun _ => colon.seq fun _ => (h.behind _).bind fun n =>
    insert owner _ m n

/-! ## Values -/

theorem enclosed {stop : Token.Kind → Bool} {step : Resolver → α → Reading α}
    {make : Location → α → β}
    (hstep : ∀ t, Drafts S (S.names t) fun r => step r (S.fill r.answer t)) (start : δ)
    (draft : Location → δ → ε)
    (hmake : ∀ l t answer, make l (S.fill answer t) = T.fill answer (draft l t))
    (hnames : ∀ l t, T.names (draft l t) = S.names t) :
    Drafts T (S.names start) fun r => Reading.enclosed stop (step r) (S.fill r.answer start) make :=
  location.seq fun l => advance.seq fun _ => skipGap.seq fun _ =>
    (untilKind hstep start).bind fun t => advance.seq fun _ =>
      pure (draft l t) (fun r => hmake l t r.answer) (hnames l t)

theorem object {value : Resolver → Reading Node} (h : Drafts .value [] value) :
    Drafts .value [] fun r => Node.readObject (value r) :=
  enclosed (h.member _ _) .empty .object (fun l t _ => (Draft.fill_object l t).symm)
    Draft.names_object

theorem array {value : Resolver → Reading Node} (h : Drafts .value [] value) :
    Drafts .value [] fun r => Node.readArray (value r) :=
  enclosed h.gather [] .array (fun l t _ => (Draft.fill_array l t).symm) Draft.names_array

theorem valueWith {inner : Resolver → Reading Node} (h : Drafts .value [] inner)
    (given : Option Location) :
    Drafts .value [] fun r => Node.readWith r (inner r) given := by
  refine current.seq fun t => ?_
  dsimp only
  cases t.content with
  | string text | textBlock text =>
    exact advance.seq fun _ => pure (.written (.string _ text)) (fun _ => rfl) rfl
  | number value => exact advance.seq fun _ => pure (.written (.number _ value)) (fun _ => rfl) rfl
  | identifier => exact shapeId.seq fun id => resolve id _
  | leftBrace => exact nested (object h)
  | leftBracket => exact nested (array h)
  | _ => exact unexpected _

theorem valueWithin (k : Nat) (given : Option Location) :
    Drafts .value [] fun r => Node.readWithin r k given := by
  induction k generalizing given with
  | zero => exact valueWith (unexpected []) given
  | succ k ih => exact valueWith (ih none) given

theorem value (given : Option Location) : Drafts .value [] fun r => Node.read r given :=
  levels fun k => valueWithin k given

/-! ## Traits -/

theorem membersBehind (name : Bytes) (l : Location) :
    Drafts .value [] fun r => Trait.readMembers r name l := by
  refine nested ((value none).bind fun n => ?_)
  have hfirst : Blanks.members.names ⟨[⟨name, l, n⟩]⟩ = Blanks.value.names n := List.append_nil _
  rw [← hfirst]
  refine skipGap.seq fun _ =>
    (untilKind ((value none).member _ _) ⟨[⟨name, l, n⟩]⟩).bind fun m => ?_
  exact pure (.object l m) (fun r => (Draft.fill_object l m).symm) (Draft.names_object l m)

theorem keyed (name : Bytes) (l : Location) {alone : Resolver → Reading Node}
    (halone : Drafts .value [] alone) :
    Drafts .value [] fun r => Trait.readKeyed r name l (alone r) :=
  advance.seq fun _ => skipGap.seq fun _ => kind.seq fun _ =>
    ite (advance.seq fun _ => skipGap.seq fun _ => membersBehind name l) halone

theorem body (l : Location) : Drafts .value [] fun r => Trait.readBody r l := by
  refine current.seq fun t => ?_
  cases t.content with
  | leftBrace | leftBracket => exact (value _).thenGap
  | textBlock text =>
    exact advance.seq fun _ => skipGap.seq fun _ =>
      pure (.written (.string l text)) (fun _ => rfl) rfl
  | number value =>
    exact advance.seq fun _ => skipGap.seq fun _ =>
      pure (.written (.number l value)) (fun _ => rfl) rfl
  | string text => exact keyed _ _ (pure (.written (.string l text)) (fun _ => rfl) rfl)
  | identifier => exact keyed _ _ (resolve _ _)
  | _ => exact unexpected _

theorem traitValue (name : Bytes) (l : Location) :
    Drafts .trait [] fun r => Trait.readValue r name l := by
  have hbare : Drafts .trait [] fun _ => Pure.pure (⟨name, .null l, .bare, l⟩ : Trait) :=
    pure ⟨name, .written (.null l), .bare, l⟩ (fun _ => rfl) rfl
  refine kind.seq fun _ => ite ?_ ((note _).seq fun _ => hbare)
  refine advance.seq fun _ => skipGap.seq fun _ => kind.seq fun _ =>
    ite (advance.seq fun _ => hbare) ?_
  exact (body l).bind fun n => skipGap.seq fun _ => (expect _).seq fun _ => advance.seq fun _ =>
    (note _).seq fun _ => pure ⟨name, n, .value, l⟩ (fun _ => rfl) rfl

theorem trait : Drafts .trait [] fun r => Trait.read r :=
  location.seq fun _ => (expect _).seq fun _ => advance.seq fun _ => shapeId.seq fun name =>
    traitValue name _

theorem traits : Drafts Blanks.trait.list [] fun r => Trait.readAll r := untilKind trait.gather []

/-! ## Statements -/

theorem keyword : Drafts (.given before) before fun _ => Apply.readKeyword := by
  rw [Apply.readKeyword_eq]
  exact current.seq fun _ => ite advance (refuse _)

theorem statementTraits : Drafts Blanks.trait.list [] fun r => Apply.readTraits r := by
  refine kind.seq fun k => ?_
  cases k with
  | «at» => exact trait.bind fun t => pure [t] (fun _ => rfl) (List.append_nil _)
  | leftBrace =>
    exact advance.seq fun _ => skipGap.seq fun _ => traits.bind fun ts => (expect _).seq fun _ =>
      advance.seq fun _ => pure ts (fun _ => rfl) rfl
  | _ => exact unexpected _

theorem statement : Drafts .statement [] fun r => Apply.read r := by
  refine location.seq fun l => keyword.seq fun _ => (expect _).seq fun _ => skipTrivia.seq fun _ =>
    shapeId.seq fun target => skipTrivia.seq fun _ => statementTraits.bind fun ts => ?_
  have hlength (r : Resolver) : (Blanks.trait.list.fill r.answer ts).length = ts.length :=
    List.length_map _
  simp only [hlength]
  exact (note _).seq fun _ => pure (⟨target, l, ts⟩ : Apply.Draft) (fun _ => rfl) rfl

theorem document : Drafts Blanks.statement.list [] fun r => Apply.readAll r :=
  skipGap.seq fun _ => untilKind statement.gather []

end Drafts

/-! ## Leading traits -/

/-- Documentation leaves no names open. -/
def Trait.written (t : Trait) : Trait.Draft := ⟨t.name, .written t.value, t.kind, t.location⟩

namespace Drafts

theorem takeDocs : Drafts (.given before) before fun _ => Reading.takeDocs := by
  refine of_step (fun c => c.takeDocs.1) (fun c => c.takeDocs.2) fun c refs events => ⟨events, ?_⟩
  have htake : (c.withRecords refs events).takeDocs =
      (c.takeDocs.1, c.takeDocs.2.withRecords refs events) := by
    have hdocs : (c.withRecords refs events).docs = c.docs := rfl
    rw [Cursor.takeDocs, Cursor.takeDocs, hdocs]
    split
    · rfl
    · rfl
  rw [Reading.takeDocs, htake]

theorem docs : Drafts (.given before) before fun _ => Trait.readDocs :=
  skipTrivia.seq fun _ => current.seq fun _ =>
    ite (skipGap.seq fun _ => takeDocs.seq fun _ => done _) (done _)

theorem leading : Drafts Blanks.trait.list [] fun r => Trait.readLeading r := by
  refine docs.seq fun docs => traits.bind fun ts => skipGap.seq fun _ =>
    pure (ts ++ (docs.map Trait.written).toList) (fun r => ?_) ?_
  · show ts.map _ ++ _ = (ts ++ _).map _
    rw [List.map_append]
    cases docs <;> rfl
  · show (ts ++ _).flatMap _ = ts.flatMap _
    rw [List.flatMap_append]
    cases docs with
    | none => exact List.append_nil _
    | some t => exact List.append_nil _

end Drafts

/-! ## The laws -/

/-- How a reading that keeps names for later and one that asks for an answer to each of them
end, from one cursor: at the same place in the same state, where the first has kept just the
names asked for that are no keywords, with the same error or with one draft filled in,
whose open names are those asked for. -/
structure SameButNames {δ α : Type} (S : Blanks δ α) (answer : Bytes → Location → Node)
    (start : Cursor) (kept asked : Except ParseError α × Cursor) : Prop where
  cursor : kept.2.withRecords [] [] = asked.2.withRecords [] []
  answers : ∃ queries, asked.2.references = start.references ++ queries ∧
    kept.2.references = start.references ++ queries.filter (·.name ∉ keywords) ∧
    ((∃ e, kept.1 = .error e ∧ asked.1 = .error e) ∨
      ∃ t, S.names t = queries ∧ kept.1 = .ok (S.fill Resolver.forward.answer t) ∧
        asked.1 = .ok (S.fill (Resolver.answering answer).answer t))

theorem Drafts.same {δ α : Type} {S : Blanks δ α} {read : Resolver → Reading α}
    (h : Drafts S [] read) (answer : Bytes → Location → Node) (c : Cursor) :
    SameButNames S answer c (read .forward c) (read (.answering answer) c) := by
  have hall (asked : List Reference) : asked.filter (Resolver.answering answer).keeps = asked :=
    List.filter_eq_self.mpr fun _ _ => rfl
  cases h c with
  | @error e _ asked ends =>
    obtain ⟨_, hkept⟩ := ends.found .forward
    obtain ⟨_, hasked⟩ := ends.found (.answering answer)
    rw [hkept, hasked, hall, Resolver.keeps_forward]
    exact ⟨rfl, asked, rfl, rfl, .inl ⟨e, rfl, rfl⟩⟩
  | @ok t _ asked names ends =>
    obtain ⟨_, hkept⟩ := ends.found .forward
    obtain ⟨_, hasked⟩ := ends.found (.answering answer)
    rw [hkept, hasked, hall, Resolver.keeps_forward]
    exact ⟨rfl, asked, rfl, rfl, .inr ⟨t, names, rfl, rfl⟩⟩

/-- Whatever names stand for, each in its place, or all of them one value as with
`Resolver.fixed`, and wherever the reading begins, for every way to read. -/
theorem no_reader_decides_what_a_name_means (answer : Bytes → Location → Node) (c : Cursor) :
    (∀ given, SameButNames .value answer c (Node.read .forward given c)
      (Node.read (.answering answer) given c)) ∧
      SameButNames .trait answer c (Trait.read .forward c) (Trait.read (.answering answer) c) ∧
      SameButNames Blanks.trait.list answer c (Trait.readAll .forward c)
        (Trait.readAll (.answering answer) c) ∧
      SameButNames Blanks.trait.list answer c (Trait.readLeading .forward c)
        (Trait.readLeading (.answering answer) c) ∧
      SameButNames .statement answer c (Apply.read .forward c) (Apply.read (.answering answer) c) ∧
      SameButNames Blanks.statement.list answer c (Apply.readAll .forward c)
        (Apply.readAll (.answering answer) c) :=
  ⟨fun given => (Drafts.value given).same answer c, Drafts.trait.same answer c,
    Drafts.traits.same answer c,
    Drafts.leading.same answer c, Drafts.statement.same answer c, Drafts.document.same answer c⟩

/-- All three names are asked for, and the keyword among them is not kept. -/
example :
    let c := ofTokens (Source.mk [] (utf8 "@t([a, true, b.c])")).tokens 64
    (Trait.read (.fixed (.null .nowhere)) c).2.references.map (·.name) =
      [utf8 "a", utf8 "true", utf8 "b.c"] ∧
      (Trait.read .forward c).2.references.map (·.name) = [utf8 "a", utf8 "b.c"] := by
  decide +kernel

end ShapeTraits
