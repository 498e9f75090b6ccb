-- Every reader is composed of a few single steps: it looks at the current token,
-- passes tokens, keeps names and events, and refuses the current token, in sequences,
-- loops and levels. What these steps keep, every reader keeps.
import ShapeTraits.Proofs.DocumentReading

namespace ShapeTraits

open Cursor

/-! ## Steps -/

/-- With more names for later and more events. -/
def Cursor.record (refs : List Reference) (events : List Log.Event) (c : Cursor) : Cursor :=
  { c with references := c.references ++ refs, events := c.events ++ events }

theorem Cursor.note_eq (e : Log.Event) (c : Cursor) : c.note e = c.record [] [e] := by
  unfold note record
  rw [List.append_nil]

theorem Resolver.keep_eq (c : Cursor) (name : Bytes) (l : Location) :
    keep c name l = c.record [⟨name, l⟩] [] := by
  unfold keep record
  rw [List.append_nil]

theorem Reading.ite_apply {α : Type} {p : Prop} [Decidable p] (yes no : Reading α) (c : Cursor) :
    (if p then yes else no) c = if p then yes c else no c := by
  by_cases h : p
  · rw [if_pos h, if_pos h]
  · rw [if_neg h, if_neg h]

/-- What a name stands for. -/
def Resolver.answer : Resolver → Reference → Node
  | forward, asked => Grammar.meaning asked.name asked.location
  | answering answer, asked => answer asked.name asked.location

/-- A name always gets a meaning, which does not depend on the cursor. -/
theorem Resolver.resolve_ok (r : Resolver) (name : Bytes) (l : Location) : ∃ n, ∀ c : Cursor, ∃ d,
    r.resolve name l c = (.ok n, d) ∧ d.ahead = c.ahead ∧ d.limit = c.limit ∧
      d.depth = c.depth := by
  cases r with
  | forward =>
    refine ⟨Grammar.meaning name l, fun c => ?_⟩
    obtain ⟨d, hd, hahead, hmove⟩ := Node.resolve_forward name l c
    exact ⟨d, hd, hahead, hmove.limit, hmove.depth⟩
  | answering answer => exact ⟨answer name l, fun c => ⟨_, rfl, rfl, rfl, rfl⟩⟩

/-- Whether the cause is a second member with the same key. -/
def ParseError.Cause.isDuplicate : Cause → Bool
  | duplicateMember .. => true
  | _ => false

/-- What a cause says of a token is so: the fault is the token's, the token is what was found,
and the key that is there already is its key. -/
def ParseError.Cause.IsAbout (t : Token) : Cause → Prop
  | fault f _ => t.content = .error f
  | unexpected found _ => found = t
  | duplicateMember _ key => Grammar.Key t key
  | noStatement | tooDeep _ => True

/-- What `unexpected` finds wrong with a token. -/
def Token.unexpectedCause (expected : List Token.Kind) (t : Token) : ParseError.Cause :=
  match t.content with
  | .error fault => .fault fault expected
  | _ => .unexpected t expected

theorem Cursor.unexpected_eq (c : Cursor) (expected : List Token.Kind) :
    c.unexpected expected = ⟨c.current.unexpectedCause expected, c.location⟩ := by
  rw [unexpected, Token.unexpectedCause]
  cases c.current.content <;> rfl

theorem Token.unexpectedCause_current (expected : List Token.Kind) (t : Token) :
    (t.unexpectedCause expected).isDuplicate = false := by
  rw [unexpectedCause]
  cases t.content <;> rfl

theorem Token.unexpectedCause_grammar (expected : List Token.Kind) (t : Token) :
    (t.unexpectedCause expected).kind = .grammar := by
  rw [unexpectedCause]
  cases t.content <;> rfl

theorem Token.unexpectedCause_about (expected : List Token.Kind) (t : Token) :
    (t.unexpectedCause expected).IsAbout t := by
  rw [unexpectedCause]
  cases hcontent : t.content with
  | error fault => exact hcontent
  | _ => rfl

theorem Cursor.unexpected_grammar (c : Cursor) (expected : List Token.Kind) :
    (c.unexpected expected).cause.kind = .grammar := by
  rw [unexpected_eq]
  exact Token.unexpectedCause_grammar expected c.current

/-- What is no token keeps its own message. -/
theorem Token.unexpectedCause_faults (expected : List Token.Kind) (t : Token) (f : Fault)
    (h : t.content = .error f) : (t.unexpectedCause expected).message = f.message := by
  rw [unexpectedCause, h]
  rfl

/-- Stops at the current token, with which something is wrong. -/
def Reading.refuseCurrent {α : Type} (cause : Token → ParseError.Cause) : Reading α :=
  fun c => (.error ⟨cause c.current, c.location⟩, c)

theorem Reading.unexpected_eq {α : Type} (kinds : List Token.Kind) :
    (Reading.unexpected kinds : Reading α) = Reading.refuseCurrent (Token.unexpectedCause kinds) :=
  funext fun c => congrArg (fun e => (Except.error e, c)) (c.unexpected_eq kinds)

theorem Reading.expect_eq (kinds : List Token.Kind) : Reading.expect kinds =
    (Reading.kind >>= fun k => if k ∈ kinds then Pure.pure () else Reading.unexpected kinds) := by
  funext c
  rw [Reading.kind_bind, Reading.expect, Reading.ite_apply]
  rfl

/-- What is wrong with a token that should begin a statement. -/
def Token.keywordCause (t : Token) : ParseError.Cause :=
  match t.content with
  | .error fault => .fault fault [.identifier]
  | _ => .noStatement

theorem Token.keywordCause_current (t : Token) : t.keywordCause.isDuplicate = false := by
  rw [keywordCause]
  cases t.content <;> rfl

theorem Token.keywordCause_grammar (t : Token) : t.keywordCause.kind = .grammar := by
  rw [keywordCause]
  cases t.content <;> rfl

theorem Token.keywordCause_about (t : Token) : t.keywordCause.IsAbout t := by
  rw [keywordCause]
  cases hcontent : t.content with
  | error fault => exact hcontent
  | _ => trivial

theorem Token.keywordCause_faults (t : Token) (f : Fault) (h : t.content = .error f) :
    t.keywordCause.message = f.message := by
  rw [keywordCause, h]
  rfl

theorem Apply.readKeyword_apply (c : Cursor) : readKeyword c =
    if c.current.content = .identifier ∧ c.current.lexeme = keyword then (.ok (), c.advance)
    else (.error ⟨c.current.keywordCause, c.location⟩, c) := by
  rw [readKeyword, Reading.current_bind, Token.keywordCause]
  cases c.current.content with
  | identifier =>
    by_cases hkeyword : c.current.lexeme = keyword
    · simp only [hkeyword, and_self, if_true]
      rfl
    · simp only [hkeyword, and_false, if_false]
      rfl
  | _ => rfl

theorem Apply.readKeyword_eq : readKeyword = (Reading.current >>= fun t =>
    if t.content = .identifier ∧ t.lexeme = keyword then Reading.advance
    else Reading.refuseCurrent Token.keywordCause) := by
  funext c
  rw [readKeyword_apply, Reading.current_bind, Reading.ite_apply]
  rfl

/-- Readings composed of single steps. All errors but those of equal keys are those of
the current token; only where `lax` holds, a gap is passed behind an error. -/
inductive Composed (lax : Prop) : {α : Type} → Reading α → Prop
  | pure {α : Type} (a : α) : Composed lax (Pure.pure a : Reading α)
  | look {α : Type} (see : Token → α) : Composed lax fun c => (.ok (see c.current), c)
  | advance : Composed lax Reading.advance
  | skip {among : Token.Kind → Bool} (gap : ∀ k, among k = true → k.isGap = true) :
      Composed lax (Reading.change (Cursor.skip among))
  | record (refs : List Reference) (events : List Log.Event) :
      Composed lax (Reading.change (Cursor.record refs events))
  | refuse {α : Type} {cause : Token → ParseError.Cause}
      (current : ∀ t, (cause t).isDuplicate = false) (about : ∀ t, (cause t).IsAbout t) :
      Composed lax (Reading.refuseCurrent cause : Reading α)
  | bind {α β : Type} {read : Reading α} {readNext : α → Reading β} (first : Composed lax read)
      (next : ∀ a, Composed lax (readNext a)) : Composed lax (read >>= readNext)
  | nested {α : Type} {read : Reading α} (inner : Composed lax read) :
      Composed lax (Reading.nested read)
  | untilKind {α : Type} {stop : Token.Kind → Bool} {read : α → Reading α} (a : α)
      (step : ∀ a, Composed lax (read a)) : Composed lax (Reading.untilKind stop read a)
  | levels {α : Type} {read : Nat → Reading α} (within : ∀ k, Composed lax (read k)) :
      Composed lax fun c => read (c.limit - c.depth) c
  | member {owner : MemberOwner} {expected : List Token.Kind} {read : Reading Node}
      (value : Composed lax read) (members : KeyedList Node) :
      Composed lax (Member.read owner expected read members)
  | thenGap {α : Type} {read : Reading α} (isLax : lax) (body : Composed lax read) :
      Composed lax (read.andAlways Cursor.skipGap)

/-- How a member ends behind its value: with an error if its key is not new. -/
def Member.insert (owner : MemberOwner) (key : Bytes × Location) (members : KeyedList Node)
    (n : Node) : Reading (KeyedList Node) :=
  match members.insert? key.1 key.2 n with
  | none => Reading.refuse ⟨.duplicateMember owner key.1, key.2⟩
  | some more => do
    Reading.skipGap
    return more

/-- What follows the key of a member. -/
def Member.readRest (owner : MemberOwner) (value : Reading Node) (members : KeyedList Node)
    (key : Bytes × Location) : Reading (KeyedList Node) := do
  colon
  let n ← value
  insert owner key members n

theorem Member.read_eq (owner : MemberOwner) (expected : List Token.Kind) (value : Reading Node)
    (members : KeyedList Node) : Member.read owner expected value members =
      (key expected >>= fun k => Reading.advance >>= fun _ => readRest owner value members k) := rfl

theorem Member.insert_apply (owner : MemberOwner) (key : Bytes × Location)
    (members : KeyedList Node) (n : Node) (c : Cursor) :
    insert owner key members n c = (.error ⟨.duplicateMember owner key.1, key.2⟩, c) ∨
      ∃ more, insert owner key members n c = (.ok more, c.skipGap) := by
  rw [insert]
  cases members.insert? key.1 key.2 n with
  | none => exact .inl rfl
  | some more => exact .inr ⟨more, rfl⟩

theorem Member.key_stays (expected : List Token.Kind) (c : Cursor) : (key expected c).2 = c := by
  rw [key, Reading.current_bind]
  cases c.current.content <;> rfl

theorem Reading.expect_stays (kinds : List Token.Kind) (c : Cursor) : (expect kinds c).2 = c := by
  rw [expect]
  split <;> rfl

/-- What follows the first word of a statement. -/
def Apply.readRest (r : Resolver) (l : Location) : Reading Apply := do
  Reading.expect [.space, .newline]
  Reading.skipTrivia
  let target ← ShapeId.read
  Reading.skipTrivia
  let traits ← readTraits r
  Reading.note (.applied target traits.length)
  return ⟨target, l, traits⟩

theorem Trait.read_eq (r : Resolver) : read r =
    (Reading.location >>= fun l => Reading.expect [.at] >>= fun _ => Reading.advance >>= fun _ =>
      ShapeId.read >>= fun name => readValue r name l) := rfl

theorem Apply.read_eq (r : Resolver) : read r =
    (Reading.location >>= fun l => readKeyword >>= fun _ => readRest r l) := rfl

/-- A loop between two brackets, of which the first is the current token. -/
def Reading.enclosed {σ β : Type} (stop : Token.Kind → Bool) (step : σ → Reading σ) (start : σ)
    (make : Location → σ → β) : Reading β := do
  let l ← location
  advance
  skipGap
  let s ← untilKind stop step start
  advance
  return make l s

/-! ## The readers are composed -/

namespace Composed

variable {α : Type} {lax : Prop}

theorem current : Composed lax Reading.current := look id

theorem kind : Composed lax Reading.kind := look Token.kind

theorem location : Composed lax Reading.location := look Token.start

theorem skipGap : Composed lax Reading.skipGap := skip fun _ h => h

theorem skipTrivia : Composed lax Reading.skipTrivia := skip (by decide)

theorem note (e : Log.Event) : Composed lax (Reading.note e) := by
  have hnote : Reading.note e = Reading.change (Cursor.record [] [e]) :=
    funext fun c => congrArg (Prod.mk _) (c.note_eq e)
  rw [hnote]
  exact record [] [e]

theorem unexpected (kinds : List Token.Kind) :
    Composed lax (Reading.unexpected kinds : Reading α) := by
  rw [Reading.unexpected_eq]
  exact refuse (Token.unexpectedCause_current kinds) (Token.unexpectedCause_about kinds)

theorem ite {p : Prop} [Decidable p] {yes no : Reading α} (hyes : Composed lax yes)
    (hno : Composed lax no) : Composed lax (if p then yes else no) := by
  by_cases h : p
  · rwa [if_pos h]
  · rwa [if_neg h]

theorem expect (kinds : List Token.Kind) : Composed lax (Reading.expect kinds) := by
  rw [Reading.expect_eq]
  exact kind.bind fun _ => ite (pure _) (unexpected kinds)

theorem gather {read : Reading α} (h : Composed lax read) (as : List α) :
    Composed lax (Reading.gather read as) :=
  h.bind fun _ => skipGap.bind fun _ => pure _

theorem resolve (r : Resolver) (name : Bytes) (l : Location) : Composed lax (r.resolve name l) := by
  cases r with
  | answering answer =>
    have hread : (Resolver.answering answer).resolve name l =
        (Reading.change (Cursor.record [⟨name, l⟩] []) >>= fun _ => Pure.pure (answer name l)) := by
      funext c
      exact congrArg (Prod.mk _) (Resolver.keep_eq c name l)
    rw [hread]
    exact (record [⟨name, l⟩] []).bind fun _ => pure (answer name l)
  | forward =>
    cases h : Resolver.keyword? name l with
    | some value =>
      have hread : Resolver.forward.resolve name l = Pure.pure value := by
        funext c
        rw [Resolver.resolve, h]
        rfl
      rw [hread]
      exact pure value
    | none =>
      have hread : Resolver.forward.resolve name l =
          (Reading.change (Cursor.record [⟨name, l⟩] [.deferred name l]) >>= fun _ =>
            Pure.pure (.string l name)) := by
        funext c
        rw [Resolver.resolve, h]
        rfl
      rw [hread]
      exact (record _ _).bind fun _ => pure _

/-! ## Values -/

theorem name (id : Bytes) : Composed lax (ShapeId.name id) :=
  (expect _).bind fun _ => current.bind fun _ => advance.bind fun _ => pure _

theorem part (sign : Token.Kind) (mark id : Bytes) : Composed lax (ShapeId.part sign mark id) :=
  kind.bind fun _ => ite (advance.bind fun _ => name _) (pure _)

theorem shapeId : Composed lax ShapeId.read :=
  (name _).bind fun _ => (untilKind _ (part _ _)).bind fun _ =>
    (part _ _ _).bind fun _ => part _ _ _

/-- What encloses a loop: an opening bracket and a closing one. -/
theorem enclosed {σ β : Type} {stop : Token.Kind → Bool} {step : σ → Reading σ}
    (hstep : ∀ s, Composed lax (step s)) (start : σ) (make : Location → σ → β) :
    Composed lax (Reading.enclosed stop step start make) :=
  location.bind fun _ => advance.bind fun _ => skipGap.bind fun _ =>
    (untilKind _ hstep).bind fun _ => advance.bind fun _ => pure _

theorem object {value : Reading Node} (h : Composed lax value) :
    Composed lax (Node.readObject value) :=
  enclosed h.member _ _

theorem array {value : Reading Node} (h : Composed lax value) :
    Composed lax (Node.readArray value) :=
  enclosed h.gather _ _

theorem valueWith {inner : Reading Node} (r : Resolver) (h : Composed lax inner)
    (given : Option Location) : Composed lax (Node.readWith r inner given) := by
  refine current.bind fun t => ?_
  dsimp only
  cases t.content with
  | string | textBlock | number => exact advance.bind fun _ => pure _
  | identifier => exact shapeId.bind fun id => resolve r id _
  | leftBrace => exact nested (object h)
  | leftBracket => exact nested (array h)
  | _ => exact unexpected _

theorem valueWithin (r : Resolver) (k : Nat) (given : Option Location) :
    Composed lax (Node.readWithin r k given) := by
  induction k generalizing given with
  | zero => exact valueWith r (unexpected []) given
  | succ k ih => exact valueWith r (ih none) given

theorem value (r : Resolver) (given : Option Location) : Composed lax (Node.read r given) :=
  levels fun k => valueWithin r k given

/-! ## Traits and statements -/

theorem members (r : Resolver) (name : Bytes) (l : Location) :
    Composed lax (Trait.readMembers r name l) :=
  nested <| (value r none).bind fun _ => skipGap.bind fun _ =>
    (untilKind _ (value r none).member).bind fun _ => pure _

theorem keyed (r : Resolver) (name : Bytes) (l : Location) {alone : Reading Node}
    (halone : Composed lax alone) : Composed lax (Trait.readKeyed r name l alone) :=
  advance.bind fun _ => skipGap.bind fun _ => kind.bind fun _ =>
    ite (advance.bind fun _ => skipGap.bind fun _ => members r name l) halone

theorem keyword : Composed lax Apply.readKeyword := by
  rw [Apply.readKeyword_eq]
  exact current.bind fun _ =>
    ite advance (refuse Token.keywordCause_current Token.keywordCause_about)

section Lax

variable (hlax : lax)

include hlax

/-- Behind an object or array the gap is passed even if it was not read. -/
theorem body (r : Resolver) (l : Location) : Composed lax (Trait.readBody r l) := by
  refine current.bind fun t => ?_
  cases t.content with
  | leftBrace | leftBracket => exact (value r _).thenGap hlax
  | textBlock | number => exact advance.bind fun _ => skipGap.bind fun _ => pure _
  | string text => exact keyed r _ _ (pure _)
  | identifier => exact keyed r _ _ (resolve r _ _)
  | _ => exact unexpected _

theorem traitValue (r : Resolver) (name : Bytes) (l : Location) :
    Composed lax (Trait.readValue r name l) :=
  kind.bind fun _ => ite
    (advance.bind fun _ => skipGap.bind fun _ => kind.bind fun _ => ite
      (advance.bind fun _ => pure _)
      ((body hlax r _).bind fun _ => skipGap.bind fun _ => (expect _).bind fun _ =>
        advance.bind fun _ => (note _).bind fun _ => pure _))
    ((note _).bind fun _ => pure _)

theorem trait (r : Resolver) : Composed lax (Trait.read r) :=
  location.bind fun _ => (expect _).bind fun _ => advance.bind fun _ => shapeId.bind fun name =>
    traitValue hlax r name _

theorem traits (r : Resolver) : Composed lax (Trait.readAll r) := untilKind [] (trait hlax r).gather

theorem statementTraits (r : Resolver) : Composed lax (Apply.readTraits r) := by
  refine kind.bind fun k => ?_
  cases k with
  | «at» => exact (trait hlax r).bind fun _ => pure _
  | leftBrace =>
    exact advance.bind fun _ => skipGap.bind fun _ => (traits hlax r).bind fun _ =>
      (expect _).bind fun _ => advance.bind fun _ => pure _
  | _ => exact unexpected _

theorem statementRest (r : Resolver) (l : Location) : Composed lax (Apply.readRest r l) :=
  (expect _).bind fun _ => skipTrivia.bind fun _ => shapeId.bind fun _ => skipTrivia.bind fun _ =>
    (statementTraits hlax r).bind fun _ => (note _).bind fun _ => pure _

theorem statement (r : Resolver) : Composed lax (Apply.read r) :=
  location.bind fun _ => keyword.bind fun _ => statementRest hlax r _

theorem document (r : Resolver) : Composed lax (Apply.readAll r) :=
  skipGap.bind fun _ => untilKind [] (statement hlax r).gather

end Lax

end Composed

/-! ## What steps keep -/

/-- What stays true of a cursor when a token is passed, when names and events are kept,
and when the level changes. -/
structure Cursor.Kept (I : Cursor → Prop) : Prop where
  advance : ∀ {c}, I c → I c.advance
  record : ∀ {c} refs events, I c → I (c.record refs events)
  enter : ∀ {c}, I c → I c.enter
  leave : ∀ {c}, I c → I c.leave

section Kept

variable {α : Type} {lax : Prop} {I : Cursor → Prop} {read : Reading α}

theorem Cursor.Kept.skip (h : Kept I) (among : Token.Kind → Bool) {c : Cursor} (hc : I c) :
    I (c.skip among) := by
  fun_induction Cursor.skip among c with
  | case1 => exact hc
  | case2 c _ _ ih => exact ih (h.advance hc)
  | case3 => exact hc

theorem Cursor.Kept.skipTrivia (h : Kept I) {c : Cursor} (hc : I c) : I c.skipTrivia := h.skip _ hc

theorem Cursor.Kept.skipGap (h : Kept I) {c : Cursor} (hc : I c) : I c.skipGap := h.skip _ hc

theorem Reading.bind_keeps {β : Type} {next : α → Reading β}
    (hread : ∀ c, I c → I (read c).2) (hnext : ∀ a c, I c → I (next a c).2) {c : Cursor}
    (hc : I c) :
    I ((read >>= next) c).2 := by
  have hd := hread c hc
  rw [Reading.bind_apply]
  generalize read c = found at hd ⊢
  obtain ⟨answer, d⟩ := found
  cases answer with
  | error e => exact hd
  | ok a => exact hnext a d hd

theorem Reading.untilKind_keeps {stop : Token.Kind → Bool} {step : α → Reading α}
    (hstep : ∀ a c, I c → I (step a c).2) (a : α) {c : Cursor} (hc : I c) :
    I (Reading.untilKind stop step a c).2 := by
  induction hn : c.ahead.length using Nat.strongRecOn generalizing a c with
  | ind n ih =>
    subst hn
    by_cases hstop : stop c.kind = true
    · rw [Reading.untilKind_stop hstop]
      exact hc
    · rw [Bool.not_eq_true] at hstop
      rw [Reading.untilKind_apply a hstop]
      refine Reading.bind_keeps (I := I) (hstep a) (fun b e he => ?_) hc
      by_cases hlt : e.ahead.length < c.ahead.length
      · rw [if_pos hlt]
        exact ih _ hlt b he rfl
      · rw [if_neg hlt]
        exact he

theorem Cursor.Kept.colon (h : Kept I) {c : Cursor} (hc : I c) : I (Member.colon c).2 := by
  rw [Member.colon, Reading.skipGap_bind]
  refine Reading.bind_keeps (I := I) (fun c hc => ?_) (fun _ c hc => h.skip _ (h.advance hc))
    (h.skip _ hc)
  rwa [Reading.expect_stays]

theorem Cursor.Kept.memberRest (h : Kept I) {value : Reading Node}
    (hvalue : ∀ c, I c → I (value c).2) (owner : MemberOwner) (members : KeyedList Node)
    (key : Bytes × Location) {c : Cursor} (hc : I c) :
    I (Member.readRest owner value members key c).2 := by
  refine Reading.bind_keeps (I := I) (fun _ hc => h.colon hc) (fun _ c hc => ?_) hc
  refine Reading.bind_keeps (I := I) hvalue (fun n c hc => ?_) hc
  rcases Member.insert_apply owner key members n c with hi | ⟨more, hi⟩
  · rwa [hi]
  · rw [hi]
    exact h.skip _ hc

theorem Cursor.Kept.member (h : Kept I) {owner : MemberOwner} {expected : List Token.Kind}
    {value : Reading Node} (hvalue : ∀ c, I c → I (value c).2) (members : KeyedList Node)
    {c : Cursor} (hc : I c) : I (Member.read owner expected value members c).2 := by
  rw [Member.read_eq]
  refine Reading.bind_keeps (I := I) (fun c hc => by rwa [Member.key_stays]) (fun key c hc => ?_) hc
  exact h.memberRest hvalue owner members key (h.advance hc)

theorem Cursor.skip_stay {among : Token.Kind → Bool} {c : Cursor} (h : among c.kind = false) :
    c.skip among = c := by
  rw [skip, h]
  split <;> rfl

theorem Cursor.skip_step {among : Token.Kind → Bool} {c : Cursor} (heof : c.kind ≠ .eof)
    (h : among c.kind = true) : c.skip among = c.advance.skip among := by
  rw [skip, isAtEnd, beq_false_of_ne heof, if_neg (by decide), if_pos h]

/-- Tokens of some kinds are passed as long as they come. -/
theorem Cursor.skip_stops {among : Token.Kind → Bool} (heof : among .eof = false) (c : Cursor) :
    among (c.skip among).kind = false := by
  fun_induction Cursor.skip among c with
  | case1 c hend =>
    rw [isAtEnd, beq_iff_eq] at hend
    rw [hend, heof]
  | case2 c hend hk ih => exact ih
  | case3 c hend hk => exact Bool.eq_false_iff.mpr hk

theorem Cursor.skipGap_stops (c : Cursor) : c.skipGap.kind.isGap = false := skip_stops rfl c

theorem Cursor.skipTrivia_stops (c : Cursor) : c.skipTrivia.kind.isTrivia = false :=
  skip_stops rfl c

/-- What every step keeps, a composed reading keeps. -/
theorem Composed.keeps (h : Composed lax read) (hI : Kept I) : ∀ c, I c → I (read c).2 := by
  induction h with
  | pure => exact fun _ hc => hc
  | look => exact fun _ hc => hc
  | advance => exact fun _ hc => hI.advance hc
  | skip => exact fun _ hc => hI.skip _ hc
  | record refs events => exact fun _ hc => hI.record refs events hc
  | refuse => exact fun _ hc => hc
  | bind _ _ hread hnext => exact fun _ hc => Reading.bind_keeps hread hnext hc
  | nested _ ih =>
    intro c hc
    rcases Nat.lt_or_ge c.depth c.limit with h | h
    · rw [Reading.nested_of_lt h]
      exact hI.leave (ih _ (hI.enter hc))
    · rw [Reading.nested_of_le h]
      exact hI.leave (hI.enter hc)
  | untilKind a _ ih => exact fun _ hc => Reading.untilKind_keeps ih a hc
  | levels _ ih => exact fun c hc => ih _ c hc
  | member _ members ih => exact fun _ hc => hI.member ih _ hc
  | thenGap _ _ ih => exact fun c hc => hI.skip _ (ih c hc)

end Kept

/-! ## Leading traits -/

section Leading

/-- The documentation before leading traits: what is taken behind the gap that begins with
it, or nothing. -/
theorem Trait.readDocs_apply (c : Cursor) : readDocs c =
    if c.skipTrivia.kind = .docComment then
      (.ok (c.skipTrivia.skipGap.takeDocs.1.map fun text => ⟨documentation,
        .string c.skipTrivia.location text, .docComment, c.skipTrivia.location⟩),
        c.skipTrivia.skipGap.takeDocs.2)
    else (.ok none, c.skipTrivia) := by
  rw [readDocs, Reading.skipTrivia_bind, Reading.current_bind, Reading.ite_apply]
  rfl

/-- What follows the documentation before leading traits. -/
def Trait.readBehindDocs (r : Resolver) (docs : Option Trait) : Reading (List Trait) := do
  let traits ← readAll r
  Reading.skipGap
  return traits ++ docs.toList

theorem Trait.readLeading_eq (r : Resolver) : readLeading r = (readDocs >>= readBehindDocs r) := rfl

/-- What is left of leading traits behind the documentation is composed. -/
theorem Composed.behindDocs {lax : Prop} (hlax : lax) (r : Resolver) (docs : Option Trait) :
    Composed lax (Trait.readBehindDocs r docs) :=
  (traits hlax r).bind fun _ => skipGap.bind fun _ => pure _

theorem Trait.readLeading_apply (r : Resolver) (c : Cursor) : ∃ docs d, readDocs c = (.ok docs, d) ∧
    readLeading r c = readBehindDocs r docs d := by
  rw [readDocs_apply, readLeading_eq]
  by_cases h : c.skipTrivia.kind = .docComment
  · exact ⟨_, _, if_pos h, Reading.bind_of_ok ((readDocs_apply c).trans (if_pos h))⟩
  · exact ⟨_, _, if_neg h, Reading.bind_of_ok ((readDocs_apply c).trans (if_neg h))⟩

theorem Cursor.Kept.docs {I : Cursor → Prop} (h : Kept I) (htake : ∀ c, I c → I c.takeDocs.2)
    {c : Cursor} (hc : I c) : I (Trait.readDocs c).2 := by
  rw [Trait.readDocs_apply]
  split
  · exact htake _ (h.skipGap (h.skipTrivia hc))
  · exact h.skipTrivia hc

theorem Cursor.Kept.leading {I : Cursor → Prop} (h : Kept I) (htake : ∀ c, I c → I c.takeDocs.2)
    (r : Resolver) {c : Cursor} (hc : I c) : I (Trait.readLeading r c).2 :=
  Reading.bind_keeps (I := I) (fun _ hc => h.docs htake hc)
    (fun docs => (Composed.behindDocs trivial r docs).keeps h) hc

end Leading

/-! ## All the tokens -/

/-- How many tokens were passed. -/
def Cursor.index (c : Cursor) : Nat := c.passed.length

/-- All the tokens, those that were passed first. -/
def Cursor.tokens (c : Cursor) : List Token := c.passed.reverse ++ c.ahead

theorem Cursor.advance_of_end {c : Cursor} (h : c.kind = .eof) : c.advance = c := by
  rw [advance_eq]
  cases ha : c.ahead with
  | nil => rfl
  | cons t rest => exact if_pos ((kind_of_ahead ha).symm.trans h)

theorem Cursor.advance_tokens (c : Cursor) : c.advance.tokens = c.tokens := by
  by_cases h : c.kind = .eof
  · rw [advance_of_end h]
  · have hmove := moved_advance h
    rw [tokens, tokens, hmove.passed, hmove.ahead, List.reverse_append, List.append_assoc]
    rfl

/-- The tokens stay the same. -/
theorem Cursor.kept_tokens (w : List Token) : Kept fun c => c.tokens = w where
  advance h := (advance_tokens _).trans h
  record _ _ h := h
  enter h := h
  leave h := h

/-! ## Progress -/

theorem Cursor.advance_suffix (c : Cursor) : c.advance.ahead <:+ c.ahead := by
  by_cases h : c.kind = .eof
  · exact ⟨[], congrArg Cursor.ahead (advance_of_end h)⟩
  · exact ⟨[c.current], (moved_advance h).ahead.symm⟩

theorem Cursor.kept_suffix (w : List Token) : Kept fun c => c.ahead <:+ w where
  advance h := (advance_suffix _).trans h
  record _ _ h := h
  enter h := h
  leave h := h

/-- Each answer stands for at least one token that was passed. -/
def Reading.Passes {α : Type} (read : Reading α) : Prop :=
  ∀ c d a, read c = (.ok a, d) → d.ahead.length < c.ahead.length

section Passes

variable {α β : Type} {read : Reading α} {next : α → Reading β} {c d : Cursor}

theorem Composed.length_le (h : Composed True read) (c : Cursor) :
    (read c).2.ahead.length ≤ c.ahead.length :=
  (h.keeps (kept_suffix c.ahead) c (List.suffix_refl _)).length_le

/-- What begins behind the current token, which is not the end, has passed it. -/
theorem Composed.lt_of_advance (h : Composed True read) (hk : c.kind ≠ .eof) :
    (read c.advance).2.ahead.length < c.ahead.length :=
  Nat.lt_of_le_of_lt (h.length_le _) ((moved_advance hk).ahead_lt (List.cons_ne_nil _ _))

/-- A loop over a reading that passes tokens ends where it should stop. -/
theorem Reading.untilKind_stops {stop : Token.Kind → Bool} {step : α → Reading α}
    (hstep : ∀ a, Passes (step a)) {a b : α} (h : Reading.untilKind stop step a c = (.ok b, d)) :
    stop d.kind = true := by
  induction hn : c.ahead.length using Nat.strongRecOn generalizing a c with
  | ind n ih =>
    subst hn
    by_cases hstop : stop c.kind = true
    · rw [Reading.untilKind_stop hstop] at h
      cases h
      exact hstop
    · rw [Bool.not_eq_true] at hstop
      obtain ⟨a', e, -, hlt, hrest⟩ := Reading.untilKind_more hstop (fun hs => hstep a _ _ _ hs) h
      exact ih _ hlt hrest rfl

/-- A loop ends where it began, or where one of its steps ended. -/
theorem Reading.untilKind_ends {stop : Token.Kind → Bool} {step : α → Reading α}
    (hstep : ∀ a, Passes (step a)) {a b : α} (h : Reading.untilKind stop step a c = (.ok b, d)) :
    d = c ∨ ∃ a' e b', step a' e = (.ok b', d) := by
  induction hn : c.ahead.length using Nat.strongRecOn generalizing a c with
  | ind n ih =>
    subst hn
    by_cases hstop : stop c.kind = true
    · rw [Reading.untilKind_stop hstop] at h
      cases h
      exact .inl rfl
    · rw [Bool.not_eq_true] at hstop
      obtain ⟨a', e, hs, hlt, hrest⟩ := Reading.untilKind_more hstop (fun hs => hstep a _ _ _ hs) h
      rcases ih _ hlt hrest rfl with rfl | hend
      · exact .inr ⟨a, c, a', hs⟩
      · exact .inr hend

theorem Reading.Passes.bind (h : Passes read) (hnext : ∀ a, Composed True (next a)) :
    Passes (read >>= next) := by
  intro c d b hread
  obtain ⟨a, e, hfirst, hrest⟩ := Reading.bind_eq_ok.mp hread
  have hle := (hnext a).length_le e
  rw [hrest] at hle
  exact Nat.lt_of_le_of_lt hle (h _ _ _ hfirst)

theorem Reading.Passes.gather (h : Passes read) (as : List α) : Passes (Reading.gather read as) :=
  h.bind fun _ => Composed.skipGap.bind fun _ => .pure _

theorem passes_name (id : Bytes) : Reading.Passes (ShapeId.name id) := by
  intro c d b hread
  obtain ⟨hk, -, rfl⟩ := ShapeId.name_eq_ok.mp hread
  exact (moved_advance (by rw [hk]; decide)).ahead_lt (List.cons_ne_nil _ _)

/-- A part passes its sign, if it is there. -/
theorem passes_part {sign : Token.Kind} (hsign : sign ≠ .eof) {mark id id' : Bytes}
    (hk : c.kind = sign)
    (h : ShapeId.part sign mark id c = (.ok id', d)) : d.ahead.length < c.ahead.length := by
  rw [ShapeId.part, Reading.kind_bind, if_pos hk, Reading.advance_bind] at h
  have hlt := (Composed.name (id ++ mark) : Composed True _).lt_of_advance (by rw [hk]; exact hsign)
  rwa [h] at hlt

theorem passes_shapeId : Reading.Passes ShapeId.read :=
  (passes_name _).bind fun _ => (Composed.untilKind _ (Composed.part _ _)).bind fun _ =>
    (Composed.part _ _ _).bind fun _ => Composed.part _ _ _

theorem passes_enclosed {σ : Type} {stop : Token.Kind → Bool} {step : σ → Reading σ}
    (hstep : ∀ s, Composed True (step s)) {start : σ} {make : Location → σ → β} (hk : c.kind ≠ .eof)
    {b : β} (hread : Reading.nested (Reading.enclosed stop step start make) c = (.ok b, d)) :
    d.ahead.length < c.ahead.length := by
  obtain ⟨-, e, hinner, rfl⟩ := Reading.nested_eq_ok.mp hread
  have hrest :
      Composed True (Reading.skipGap >>= fun _ => Reading.untilKind stop step start >>= fun s =>
      Reading.advance >>= fun _ => Pure.pure (make c.enter.location s)) :=
    Composed.skipGap.bind fun _ => (Composed.untilKind _ hstep).bind fun _ =>
      Composed.advance.bind fun _ => .pure _
  have hlt := hrest.lt_of_advance (c := c.enter) hk
  rw [Reading.enclosed, Reading.location_bind, Reading.advance_bind] at hinner
  rw [hinner] at hlt
  exact hlt

theorem passes_valueWith (r : Resolver) (given : Option Location) {inner : Reading Node}
    (hinner : Composed True inner) : Reading.Passes (Node.readWith r inner given) := by
  intro c d n hread
  have hadvance {content : Token.Content} (h : c.current.content = content)
      (hne : content ≠ .eof := by simp) : c.advance.ahead.length < c.ahead.length :=
    (moved_advance (Token.ne_eof_of_content h hne)).ahead_lt (List.cons_ne_nil _ _)
  rcases Node.readWith_eq_ok hread with ⟨text, h⟩ | ⟨value, h⟩ | h | h | h
  · rw [Node.readWith_of_text h] at hread
    cases hread
    exact h.elim (hadvance ·) (hadvance ·)
  · rw [Node.readWith_of_number h] at hread
    cases hread
    exact hadvance h
  · rw [Node.readWith_of_identifier h] at hread
    exact passes_shapeId.bind (fun id => Composed.resolve r id _) _ _ _ hread
  · rw [Node.readWith_of_leftBrace h] at hread
    exact passes_enclosed hinner.member (Token.ne_eof_of_content h) hread
  · rw [Node.readWith_of_leftBracket h] at hread
    exact passes_enclosed hinner.gather (Token.ne_eof_of_content h) hread

theorem passes_valueWithin (r : Resolver) (k : Nat) (given : Option Location) :
    Reading.Passes (Node.readWithin r k given) := by
  cases k with
  | zero => exact passes_valueWith r given (Composed.unexpected [])
  | succ k => exact passes_valueWith r given (Composed.valueWithin r k none)

theorem passes_member (owner : MemberOwner) (expected : List Token.Kind) {value : Reading Node}
    (hvalue : Composed True value) (members : KeyedList Node) :
    Reading.Passes (Member.read owner expected value members) := by
  intro c d more hread
  rw [Member.read_eq] at hread
  obtain ⟨key, e, hkey, hrest⟩ := Reading.bind_eq_ok.mp hread
  obtain ⟨hisKey, -, rfl⟩ := Member.key_eq_ok.mp hkey
  have hkept := kept_suffix e.advance.ahead
  have hle :=
    (hkept.memberRest (hvalue.keeps hkept) owner members key (List.suffix_refl _)).length_le
  rw [Reading.advance_bind] at hrest
  rw [hrest] at hle
  exact Nat.lt_of_le_of_lt hle ((moved_advance hisKey.ne_eof).ahead_lt (List.cons_ne_nil _ _))

theorem passes_trait (r : Resolver) : Reading.Passes (Trait.read r) := by
  intro c d t hread
  rw [Trait.read_eq, Reading.location_bind, Reading.expect_bind_eq_ok, List.mem_singleton] at hread
  obtain ⟨hk, hread⟩ := hread
  have hrest := Composed.shapeId.bind fun name => Composed.traitValue trivial r name c.location
  have hlt := hrest.lt_of_advance (c := c) (by rw [hk]; decide)
  rw [Reading.advance_bind] at hread
  rwa [hread] at hlt

theorem passes_statement (r : Resolver) : Reading.Passes (Apply.read r) := by
  intro c d s hread
  rw [Apply.read_eq, Reading.location_bind] at hread
  obtain ⟨_, e, hkeyword, hread⟩ := Reading.bind_eq_ok.mp hread
  obtain ⟨hcontent, -, rfl⟩ := Apply.readKeyword_eq_ok.mp hkeyword
  have hlt := (Composed.statementRest trivial r c.location).lt_of_advance
    (Token.ne_eof_of_content hcontent)
  rwa [hread] at hlt

end Passes

end ShapeTraits
