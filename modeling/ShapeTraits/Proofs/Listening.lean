-- Reading a document while a log listens. No reader looks at what was told before it, and
-- the log gives each sink the messages that its settings let through, in their order.
import ShapeTraits.Proofs.Composition
import ShapeTraits.Proofs.LevelGate
import ShapeTraits.Proofs.QuietLog

namespace ShapeTraits

open Cursor

/-! ## Readers only tell -/

/-- With other events so far. -/
def Cursor.withEvents (events : List Log.Event) (c : Cursor) : Cursor := { c with events }

/-- From a cursor on a reading tells the same events, whatever was told before, and nothing
else that it does depends on that. -/
def Reading.OnlyTells {α : Type} (read : Reading α) (c : Cursor) : Prop :=
  ∃ told, ∀ earlier, read (c.withEvents earlier) =
    ((read c).1, (read c).2.withEvents (earlier ++ told))

section Moves

variable (c : Cursor)

theorem Cursor.take_withEvents (t : Token) : ∃ told, ∀ earlier,
    (c.withEvents earlier).take t = (c.take t).withEvents (earlier ++ told) := by
  unfold take
  split
  · exact ⟨[], fun earlier => by rw [List.append_nil]; rfl⟩
  · split
    · exact ⟨[], fun earlier => by rw [List.append_nil]⟩
    · unfold dropDocs
      by_cases hdocs : c.docs = []
      · refine ⟨[], fun earlier => ?_⟩
        rw [if_pos hdocs, List.append_nil]
        exact if_pos hdocs
      · refine ⟨[.strayDocs t.start], fun earlier => ?_⟩
        rw [if_neg hdocs]
        exact if_neg hdocs

theorem Cursor.advance_withEvents : ∃ told, ∀ earlier,
    (c.withEvents earlier).advance = c.advance.withEvents (earlier ++ told) := by
  by_cases hk : c.kind = .eof
  · refine ⟨[], fun earlier => ?_⟩
    rw [advance_of_end hk, advance_of_end (c := c.withEvents earlier) hk, List.append_nil]
  · obtain ⟨told, htake⟩ := c.take_withEvents c.current
    refine ⟨told, fun earlier => ?_⟩
    have hcurrent : (c.withEvents earlier).current = c.current := rfl
    rw [advance_of_ahead (ahead_eq_cons hk) hk,
      advance_of_ahead (c := c.withEvents earlier) (ahead_eq_cons hk) hk, hcurrent, htake]
    rfl

theorem Cursor.skip_withEvents (among : Token.Kind → Bool) : ∃ told, ∀ earlier,
    (c.withEvents earlier).skip among = (c.skip among).withEvents (earlier ++ told) := by
  fun_induction Cursor.skip among c with
  | case1 c hend =>
    refine ⟨[], fun earlier => ?_⟩
    rw [Cursor.skip, List.append_nil]
    exact if_pos hend
  | case2 c hend hk ih =>
    have heof : c.kind ≠ .eof := by simpa [isAtEnd] using hend
    obtain ⟨told, hadvance⟩ := c.advance_withEvents
    obtain ⟨later, hskip⟩ := ih
    refine ⟨told ++ later, fun earlier => ?_⟩
    rw [skip_step (c := c.withEvents earlier) heof hk, hadvance, hskip, List.append_assoc]
  | case3 c hend hk =>
    refine ⟨[], fun earlier => ?_⟩
    rw [skip_stay (c := c.withEvents earlier) (Bool.eq_false_iff.mpr hk), List.append_nil]

end Moves

namespace Reading.OnlyTells

variable {α β : Type} {read : Reading α} {next : α → Reading β} {c : Cursor}

/-- What is told is what is left of it where nothing was told before. -/
theorem apply_withEvents (h : OnlyTells read c) (hc : c.events = []) (earlier : List Log.Event) :
    read (c.withEvents earlier) =
      ((read c).1, (read c).2.withEvents (earlier ++ (read c).2.events)) := by
  obtain ⟨told, hread⟩ := h
  have hnone : c.withEvents [] = c := by rw [← hc]; rfl
  have htold : (read c).2.events = told := by
    have hfirst := congrArg (fun found => found.2.events) (hread [])
    rwa [hnone] at hfirst
  rw [hread, htold]

/-! ## Single steps -/

/-- A step that tells nothing. -/
theorem of_silent
    (h : ∀ earlier, read (c.withEvents earlier) = ((read c).1, (read c).2.withEvents earlier)) :
    OnlyTells read c := by
  refine ⟨[], fun earlier => ?_⟩
  rw [List.append_nil]
  exact h earlier

theorem advance (c : Cursor) : OnlyTells Reading.advance c := by
  obtain ⟨told, h⟩ := c.advance_withEvents
  exact ⟨told, fun earlier => congrArg (Prod.mk _) (h earlier)⟩

theorem skip (among : Token.Kind → Bool) (c : Cursor) :
    OnlyTells (Reading.change (Cursor.skip among)) c := by
  obtain ⟨told, h⟩ := c.skip_withEvents among
  exact ⟨told, fun earlier => congrArg (Prod.mk _) (h earlier)⟩

theorem key (expected : List Token.Kind) (c : Cursor) : OnlyTells (Member.key expected) c := by
  apply of_silent
  intro earlier
  rw [Member.key, current_bind, current_bind]
  have hcurrent : (c.withEvents earlier).current = c.current := rfl
  rw [hcurrent]
  cases c.current.content <;> rfl

theorem expect (kinds : List Token.Kind) (c : Cursor) : OnlyTells (Reading.expect kinds) c := by
  apply of_silent
  intro earlier
  have hkind : (c.withEvents earlier).kind = c.kind := rfl
  unfold Reading.expect
  rw [hkind]
  split <;> rfl

/-! ## Steps made of steps -/

theorem bind (hread : OnlyTells read c)
    (hnext : ∀ a d, read c = (.ok a, d) → OnlyTells (next a) d) :
    OnlyTells (read >>= next) c := by
  obtain ⟨told, hread⟩ := hread
  rcases hfound : read c with ⟨answer, d⟩
  rw [hfound] at hread
  cases answer with
  | error e =>
    refine ⟨told, fun earlier => ?_⟩
    rw [bind_of_error (hread earlier), bind_of_error hfound]
  | ok a =>
    obtain ⟨later, hlater⟩ := hnext a d hfound
    refine ⟨told ++ later, fun earlier => ?_⟩
    rw [bind_of_ok (hread earlier), hlater, bind_of_ok hfound, List.append_assoc]

theorem andAlways_skip (among : Token.Kind → Bool) (h : OnlyTells read c) :
    OnlyTells (read.andAlways (Cursor.skip among)) c := by
  obtain ⟨told, hread⟩ := h
  obtain ⟨later, hskip⟩ := (read c).2.skip_withEvents among
  refine ⟨told ++ later, fun earlier => ?_⟩
  rw [andAlways_apply, andAlways_apply, hread, hskip, List.append_assoc]

theorem nested (h : OnlyTells read c.enter) : OnlyTells (Reading.nested read) c := by
  rcases Nat.lt_or_ge c.depth c.limit with hlow | hhigh
  · obtain ⟨told, hread⟩ := h
    refine ⟨told, fun earlier => ?_⟩
    have henter : (c.withEvents earlier).enter = c.enter.withEvents earlier := rfl
    rw [nested_of_lt hlow, nested_of_lt (c := c.withEvents earlier) hlow, henter, hread]
    rfl
  · apply of_silent
    intro earlier
    rw [nested_of_le hhigh, nested_of_le (c := c.withEvents earlier) hhigh]
    rfl

theorem untilKind {stop : Token.Kind → Bool} {step : α → Reading α}
    (hstep : ∀ a c, OnlyTells (step a) c) (a : α) (c : Cursor) :
    OnlyTells (Reading.untilKind stop step a) c := by
  induction hn : c.ahead.length using Nat.strongRecOn generalizing a c with
  | ind n ih =>
    subst hn
    by_cases hstop : stop c.kind = true
    · apply of_silent
      intro earlier
      rw [untilKind_stop hstop, untilKind_stop (c := c.withEvents earlier) hstop]
    · rw [Bool.not_eq_true] at hstop
      -- Behind its first step the loop goes on if that has passed a token.
      have hrest : OnlyTells (step a >>= fun b e =>
          if e.ahead.length < c.ahead.length then Reading.untilKind stop step b e
          else (.ok b, e)) c := by
        refine (hstep a c).bind fun b e _ => ?_
        unfold OnlyTells
        by_cases hlt : e.ahead.length < c.ahead.length
        · obtain ⟨told, hloop⟩ := ih e.ahead.length hlt b e rfl
          refine ⟨told, fun earlier => ?_⟩
          have hlt' : (e.withEvents earlier).ahead.length < c.ahead.length := hlt
          simp only [if_pos hlt, if_pos hlt', hloop]
        · refine ⟨[], fun earlier => ?_⟩
          have hlt' : ¬(e.withEvents earlier).ahead.length < c.ahead.length := hlt
          simp only [if_neg hlt, if_neg hlt', List.append_nil]
      obtain ⟨told, hloop⟩ := hrest
      refine ⟨told, fun earlier => ?_⟩
      rw [untilKind_apply a hstop, untilKind_apply (c := c.withEvents earlier) a hstop]
      exact hloop earlier

theorem colon (c : Cursor) : OnlyTells Member.colon c :=
  (skip _ c).bind fun _ d _ => (expect _ d).bind fun _ e _ => (advance e).bind fun _ f _ => skip _ f

theorem insert (owner : MemberOwner) (key : Bytes × Location) (members : KeyedList Node) (n : Node)
    (c : Cursor) : OnlyTells (Member.insert owner key members n) c := by
  unfold Member.insert
  split
  · exact of_silent fun _ => rfl
  · exact (skip _ c).bind fun _ _ _ => of_silent fun _ => rfl

theorem member {value : Reading Node} (hvalue : ∀ c, OnlyTells value c) (owner : MemberOwner)
    (expected : List Token.Kind) (members : KeyedList Node) (c : Cursor) :
    OnlyTells (Member.read owner expected value members) c := by
  rw [Member.read_eq]
  exact (key expected c).bind fun _ d _ => (advance d).bind fun _ e _ => (colon e).bind fun _ f _ =>
    (hvalue f).bind fun n i _ => insert owner _ members n i

end Reading.OnlyTells

/-- Whatever is composed of single steps only tells. -/
theorem Composed.onlyTells {lax : Prop} {α : Type} {read : Reading α} (h : Composed lax read)
    (c : Cursor) : read.OnlyTells c := by
  induction h generalizing c with
  | pure | look | refuse => exact .of_silent fun _ => rfl
  | advance => exact .advance c
  | skip => exact .skip _ c
  | record refs events => exact ⟨events, fun _ => rfl⟩
  | bind _ _ hread hnext => exact (hread c).bind fun a d _ => hnext a d
  | nested _ ih => exact (ih c.enter).nested
  | untilKind a _ ih => exact .untilKind ih a c
  | levels _ ih => exact ih (c.limit - c.depth) c
  | member _ members ih => exact .member ih _ _ members c
  | thenGap _ _ ih => exact (ih c).andAlways_skip _

namespace Log

/-! ## Sinks that are given messages -/

theorem Sink.each_memory (r : Record) {sinks : List Sink} {i : Nat} {kept : List Record} (h : Host)
    (hsink : sinks[i]? = some (.memory kept)) :
    (each (write r) sinks h).1[i]? = some (.memory (kept ++ [r])) := by
  induction sinks generalizing i h with
  | nil => cases hsink
  | cons s sinks ih =>
    cases i with
    | zero =>
      obtain rfl : s = .memory kept := Option.some.inj hsink
      rfl
    | succ i => exact ih (write r s h).2 hsink

namespace Logger

variable {l : Logger}

/-- Gives some messages to every sink, one after another. -/
def logAll (l : Logger) : List Record → Host → Logger × Host
  | [], h => (l, h)
  | r :: rest, h =>
    let (l, h) := l.log r h
    l.logAll rest h

/-- A sink in memory keeps all that it is given. -/
theorem logAll_memory {i : Nat} {kept : List Record} (records : List Record) (h : Host)
    (hsink : l.sinks[i]? = some (.memory kept)) :
    (l.logAll records h).1.sinks[i]? = some (.memory (kept ++ records)) := by
  induction records generalizing l h kept with
  | nil => rwa [List.append_nil]
  | cons r records ih =>
    rw [List.append_cons]
    exact ih _ (Sink.each_memory r h hsink)

/-! ## Events that are told -/

/-- Whether an event is to be written. -/
def hears (l : Logger) (e : Event) : Bool := l.shouldLog e.level e.module

theorem tell_cons (l : Logger) (e : Event) (events : List Event) (h : Host) :
    l.tell (e :: events) h =
      (l.offer (e.record h.clock) h).1.tell events (l.offer (e.record h.clock) h).2 := rfl

theorem logAll_cons (l : Logger) (r : Record) (records : List Record) (h : Host) :
    l.logAll (r :: records) h = (l.log r h).1.logAll records (l.log r h).2 := rfl

/-- Of all that it is told, a log gives its sinks what it hears, in the same order. -/
theorem tell_eq (l : Logger) (events : List Event) (h : Host) :
    l.tell events h = l.logAll ((events.filter l.hears).map (·.record h.clock)) h := by
  induction events generalizing l h with
  | nil => rfl
  | cons e events ih =>
    rw [tell_cons, ih]
    by_cases hhears : l.hears e = true
    · have hoffer : l.offer (e.record h.clock) h = l.log (e.record h.clock) h := if_pos hhears
      -- What a log hears is said by its settings, and a message changes only its sinks.
      have hsame : (l.log (e.record h.clock) h).1.hears = l.hears := rfl
      have hclock : (l.log (e.record h.clock) h).2.clock = h.clock :=
        (l.log_quietly _ h).quiet.clock
      rw [hoffer, hsame, hclock, List.filter_cons_of_pos hhears, List.map_cons, logAll_cons]
    · have hoffer : l.offer (e.record h.clock) h = (l, h) := if_neg hhears
      rw [hoffer, List.filter_cons_of_neg hhears]

theorem tell_append (l : Logger) (events more : List Event) (h : Host) :
    l.tell (events ++ more) h = (l.tell events h).1.tell more (l.tell events h).2 := by
  induction events generalizing l h with
  | nil => rfl
  | cons e events ih => exact ih _ _

/-- With everything to be written. -/
def loud (l : Logger) : Logger := (l.setFilter []).setLevel .trace

/-- With nothing to be written. -/
def silent (l : Logger) : Logger := l.setLevel .off

theorem hears_loud (l : Logger) (e : Event) : l.loud.hears e = true :=
  shouldLog_iff.mpr ⟨Nat.zero_le _, Filter.allows_iff.mpr (Nat.zero_le _)⟩

theorem hears_silent (l : Logger) (e : Event) : l.silent.hears e = false := by
  have hlevel : ¬Level.off ≤ e.level := by cases e <;> exact of_decide_eq_false rfl
  exact Bool.eq_false_iff.mpr fun hhears => hlevel (shouldLog_iff.mp hhears).1

end Logger

end Log

/-! ## A document that is read while a log listens -/

/-- Reads while a log listens, and tells it what happens. The log is told of all steps behind
the last one of them; by `live_bind` this is what comes of telling it after each step. -/
def Reading.live {α : Type} (read : Reading α) (c : Cursor) (l : Log.Logger) (h : Host) :
    (Except ParseError α × Cursor) × Log.Logger × Host :=
  let (answer, d) := read (c.withEvents [])
  ((answer, d.withEvents []), l.tell d.events h)

/-- It makes no difference whether the log is told after each step of a reader or once behind
the last one. -/
theorem Reading.live_bind {α β : Type} {read : Reading α} {next : α → Reading β}
    (hnext : ∀ a d, OnlyTells (next a) d) (c : Cursor) (l : Log.Logger) (h : Host) :
    (read >>= next).live c l h =
      match read.live c l h with
      | ((.ok a, d), l, h) => (next a).live d l h
      | ((.error e, d), l, h) => ((.error e, d), l, h) := by
  rcases hread : read (c.withEvents []) with ⟨answer, d⟩
  cases answer with
  | error e => simp only [live, hread, bind_of_error hread]
  | ok a =>
    have hrest := (hnext a (d.withEvents [])).apply_withEvents rfl d.events
    have hd : (d.withEvents []).withEvents d.events = d := rfl
    rw [hd] at hrest
    simp only [live, hread, bind_of_ok hread, hrest]
    exact congrArg (Prod.mk _) (l.tell_append d.events _ h)

/-- What comes of a document. -/
structure Outcome where
  tokens : List Token
  errors : List LexicalError
  answer : Except ParseError (List Apply)
  warnings : List Warning
  references : List Reference

/-- All that happens on the way from a document to its statements. -/
def documentEvents (r : Resolver) (source : Source) (limit : Nat) : List Log.Event :=
  tokenEvents source source.tokens ++ (readDocument r source.tokens limit).2.events

namespace Log.Logger

/-- Makes tokens of a document and reads its statements, while a log listens. -/
def listen (l : Logger) (r : Resolver) (source : Source) (limit : Nat) (h : Host) :
    Outcome × Logger × Host :=
  let tokens := source.tokens
  let (l, h) := l.tell (tokenEvents source tokens) h
  let ((answer, c), heard) := (Apply.readAll r).live (Cursor.ofTokens tokens limit) l h
  (⟨tokens, lexicalErrors tokens, answer, c.warnings, c.references⟩, heard)

theorem listen_heard (l : Logger) (r : Resolver) (source : Source) (limit : Nat) (h : Host) :
    (l.listen r source limit h).2 = l.tell (documentEvents r source limit) h := by
  rw [documentEvents, tell_append]
  rfl

/-- A filter only filters. A reader goes on in the same way whatever was told before, and what
comes of a document is the same with any log as with a silent one, which writes nothing. Where
everything is written, every sink is given all events of the document. Any other log gives its
sinks those of the same events that it should write, in the same order. -/
theorem a_filter_only_filters (l : Logger) (r : Resolver) (source : Source) (limit : Nat)
    (h other : Host) :
    let c := Cursor.ofTokens source.tokens limit
    let events := documentEvents r source limit
    let kept := events.filter fun e => l.shouldLog e.level e.module
    (∀ earlier, Apply.readAll r (c.withEvents earlier) =
      ((Apply.readAll r c).1,
        (Apply.readAll r c).2.withEvents (earlier ++ (Apply.readAll r c).2.events))) ∧
    l.silent.listen r source limit other = ((l.listen r source limit h).1, l.silent, other) ∧
    (l.loud.listen r source limit other).2 =
      l.loud.logAll (events.map (·.record other.clock)) other ∧
    (l.listen r source limit h).2 = l.logAll (kept.map (·.record h.clock)) h ∧
    ∀ (i : Nat) (before : List Record), l.sinks[i]? = some (.memory before) →
      (l.loud.listen r source limit other).2.1.sinks[i]? =
        some (.memory (before ++ events.map (·.record other.clock))) ∧
      (l.listen r source limit h).2.1.sinks[i]? =
        some (.memory (before ++ kept.map (·.record h.clock))) := by
  intro c events kept
  have hloud : (l.loud.listen r source limit other).2 =
      l.loud.logAll (events.map (·.record other.clock)) other := by
    rw [listen_heard, tell_eq, List.filter_eq_self.mpr fun e _ => l.hears_loud e]
  have hkept : (l.listen r source limit h).2 = l.logAll (kept.map (·.record h.clock)) h := by
    rw [listen_heard, tell_eq]
    rfl
  have hsilent : (l.silent.listen r source limit other).2 = (l.silent, other) := by
    rw [listen_heard, tell_eq, List.filter_eq_nil_iff.mpr fun e _ => by simp [l.hears_silent e]]
    rfl
  refine ⟨fun earlier => ?_, Prod.ext rfl hsilent, hloud, hkept, fun i before hsink => ?_⟩
  · exact ((Composed.document trivial r).onlyTells c).apply_withEvents rfl earlier
  · rw [hloud, hkept]
    exact ⟨logAll_memory _ other hsink, logAll_memory _ h hsink⟩

/-- Of four events, one is a warning of a module that is followed from warnings on. -/
theorem a_log_keeps_a_warning_among_four_events :
    let l := (Logger.initial.setFilter (utf8 "parser=warn")).addSink (.memory [])
    let source : Source := ⟨utf8 "a", utf8 "/// lost\napply s @t"⟩
    let h : Host := ⟨.emptyAt [], [], [], 7, false, none, none⟩
    let stray : Event := .strayDocs ⟨utf8 "a", 2, 1, 9, 5⟩
    let events : List Event := [.tokenized (utf8 "a") 9 0, stray,
      .bareTrait (utf8 "t") ⟨utf8 "a", 2, 9, 17, 1⟩, .applied (utf8 "s") 1]
    (l.loud.listen .forward source 64 h).2.1.sinks[0]? = some (.memory (events.map (·.record 7))) ∧
    (l.listen .forward source 64 h).2.1.sinks[0]? = some (.memory [stray.record 7]) := by
  intro l source h stray events
  have hevents : documentEvents .forward source 64 = events := by decide +kernel
  have hlaw := (l.a_filter_only_filters .forward source 64 h h).2.2.2.2 0 [] rfl
  rw [hevents] at hlaw
  exact hlaw

end Log.Logger

end ShapeTraits
