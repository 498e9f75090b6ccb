-- A reading looks at no token behind the one it stops at, and at none before the one
-- it starts at. And what it finds wrong is wrong with the token it stops at, or else
-- with the key of a member that is there already.
import Mathlib
import ShapeTraits.Proofs.Composition
import ShapeTraits.Token.Lexer

namespace ShapeTraits

open Cursor Grammar

/-! ## Other surroundings -/

namespace Cursor

/-- The same cursor between other tokens. -/
def between (before behind : List Token) (c : Cursor) : Cursor :=
  { c with passed := before, ahead := behind }

variable {c d : Cursor} {w behind : List Token}

@[simp] theorem between_ahead (before behind : List Token) (c : Cursor) :
    (c.between before behind).ahead = behind := rfl

theorem current_between (before : List Token) (h : behind.head? = c.ahead.head?) :
    (c.between before behind).current = c.current := by
  unfold current
  rw [between_ahead, List.headD_eq_head?_getD, List.headD_eq_head?_getD, h]

theorem kind_between (before : List Token) (h : behind.head? = c.ahead.head?) :
    (c.between before behind).kind = c.kind := congrArg Token.kind (current_between before h)

theorem location_between (before : List Token) (h : behind.head? = c.ahead.head?) :
    (c.between before behind).location = c.location :=
  congrArg Token.start (current_between before h)

theorem dropDocs_between (before behind : List Token) (c : Cursor) (l : Location) :
    (c.between before behind).dropDocs l = (c.dropDocs l).between before behind := by
  unfold dropDocs between
  split
  · rfl
  · rfl

theorem take_between (before behind : List Token) (c : Cursor) (t : Token) :
    (c.between before behind).take t = (c.take t).between before behind := by
  unfold take
  split
  · rfl
  · split
    · rfl
    · exact dropDocs_between before behind c t.start

end Cursor

/-! ## Readings that look no further -/

section Local

variable {α β : Type} {c d : Cursor} {read : Reading α}

/-- What happened at a cursor happens as well between any other tokens, if only the ones
that were passed and the next one are the same. -/
def Cursor.Unmoved (read : Reading α) (c : Cursor) : Prop :=
  ∃ w, c.ahead = w ++ (read c).2.ahead ∧ ∀ before behind, behind.head? = (read c).2.ahead.head? →
    read (c.between before (w ++ behind)) =
      ((read c).1, (read c).2.between (w.reverse ++ before) behind)

/-- A reading that looks at no token behind the one it stops at, and at none before the
one it starts at. -/
def Reading.IsLocal (read : Reading α) : Prop := ∀ c, Unmoved read c

/-- The next token stays the same if other tokens follow what was passed. -/
theorem head_append {w x y : List Token} (h : x.head? = y.head?) :
    (w ++ x).head? = (w ++ y).head? := by
  rw [List.head?_append, List.head?_append, h]

theorem length_lt_append {w x : List Token} : x.length < (w ++ x).length ↔ w ≠ [] := by
  rw [List.length_append, ← List.length_pos_iff]
  omega

namespace Reading.IsLocal

/-- A reading that passes no token. -/
theorem of_still (hstill : ∀ c, (read c).2.ahead = c.ahead)
    (hread : ∀ c before behind, behind.head? = c.ahead.head? →
      read (c.between before behind) = ((read c).1, (read c).2.between before behind)) :
    IsLocal read := by
  intro c
  refine ⟨[], (hstill c).symm, fun before behind h => hread c before behind ?_⟩
  rw [h, hstill c]

theorem pure (a : α) : IsLocal (Pure.pure a : Reading α) :=
  of_still (fun _ => rfl) fun _ _ _ _ => rfl

theorem look (see : Token → α) : IsLocal fun c => (.ok (see c.current), c) :=
  of_still (fun _ => rfl) fun _ before _ h => by rw [current_between before h]

theorem record (refs : List Reference) (events : List Log.Event) :
    IsLocal (Reading.change (Cursor.record refs events)) :=
  of_still (fun _ => rfl) fun _ _ _ _ => rfl

theorem refuse (e : ParseError) : IsLocal (Reading.refuse e : Reading α) :=
  of_still (fun _ => rfl) fun _ _ _ _ => rfl

theorem refuseCurrent (cause : Token → ParseError.Cause) :
    IsLocal (Reading.refuseCurrent cause : Reading α) :=
  of_still (fun _ => rfl) fun _ before _ h => by
    rw [Reading.refuseCurrent, current_between before h, location_between before h]
    rfl

theorem takeDocs : IsLocal Reading.takeDocs := by
  have htake (c : Cursor) : Reading.takeDocs c = (.ok c.takeDocs.1, c.takeDocs.2) := rfl
  refine of_still (fun c => ?_) fun c before behind _ => ?_
  · rw [htake, Cursor.takeDocs]
    split <;> rfl
  · rw [htake, htake, Cursor.takeDocs, Cursor.takeDocs]
    by_cases h : c.docs = []
    · rw [if_pos h, if_pos (show (c.between before behind).docs = [] from h)]
    · rw [if_neg h, if_neg (show (c.between before behind).docs ≠ [] from h)]
      rfl

theorem advance : IsLocal Reading.advance := by
  intro c
  by_cases h : c.kind = .eof
  · refine ⟨[], ?_, fun before behind hb => ?_⟩
    · rw [Reading.advance, Reading.change, advance_of_end h]
      rfl
    · rw [Reading.advance, Reading.change, Reading.change, advance_of_end h] at *
      rw [List.nil_append, advance_of_end ((kind_between before hb).trans h)]
      rfl
  · refine ⟨[c.current], (moved_advance h).ahead, fun before behind _ => ?_⟩
    rw [Reading.advance, Reading.change, Reading.change, advance_of_ahead (ahead_eq_cons h) h,
      List.singleton_append, advance_of_ahead (between_ahead before (c.current :: behind) c) h,
      take_between]
    rfl

theorem bind {first : Reading α} {next : α → Reading β} (hfirst : IsLocal first)
    (hnext : ∀ a, IsLocal (next a)) : IsLocal (first >>= next) := by
  intro c
  obtain ⟨w, ha, h⟩ := hfirst c
  rcases hf : first c with ⟨answer, d⟩
  rw [hf] at ha h
  cases answer with
  | error e =>
    rw [Unmoved, Reading.bind_of_error hf]
    exact ⟨w, ha, fun before behind hb => Reading.bind_of_error (h before behind hb)⟩
  | ok a =>
    obtain ⟨x, hx, g⟩ := hnext a d
    rw [Unmoved, Reading.bind_of_ok hf]
    refine ⟨w ++ x, by rw [ha, List.append_assoc, ← hx], fun before behind hb => ?_⟩
    have hstart := h before (x ++ behind) (by rw [hx]; exact head_append hb)
    rw [List.append_assoc, Reading.bind_of_ok hstart, g _ behind hb, List.reverse_append,
      List.append_assoc]

theorem untilKind {stop : Token.Kind → Bool} {step : α → Reading α} (hstep : ∀ a, IsLocal (step a))
    (a : α) : IsLocal (Reading.untilKind stop step a) := by
  intro c
  induction hn : c.ahead.length using Nat.strongRecOn generalizing a c with
  | ind n ih =>
    subst hn
    by_cases hstop : stop c.kind = true
    · rw [Unmoved, Reading.untilKind_stop hstop]
      refine ⟨[], rfl, fun before behind hb => Reading.untilKind_stop ?_⟩
      rw [List.nil_append, kind_between before hb, hstop]
    · rw [Bool.not_eq_true] at hstop
      obtain ⟨w, ha, h⟩ := hstep a c
      rcases hs : step a c with ⟨answer, d⟩
      rw [hs] at ha h
      have hgo {before behind : List Token} (hb : behind.head? = d.ahead.head?) :
          stop (c.between before (w ++ behind)).kind = false := by
        rw [kind_between before (by rw [ha]; exact head_append hb), hstop]
      cases answer with
      | error e =>
        rw [Unmoved, Reading.untilKind_error hstop hs]
        exact ⟨w, ha, fun before behind hb => Reading.untilKind_error (hgo hb) (h before behind hb)⟩
      | ok b =>
        -- Whether a step passed a token is the same between other tokens.
        by_cases hlt : d.ahead.length < c.ahead.length
        · obtain ⟨x, hx, g⟩ := ih _ hlt b d rfl
          rw [Unmoved, Reading.untilKind_step hstop hs hlt]
          refine ⟨w ++ x, by rw [ha, List.append_assoc, ← hx], fun before behind hb => ?_⟩
          have hnext : (x ++ behind).head? = d.ahead.head? := by rw [hx]; exact head_append hb
          have hstart := h before (x ++ behind) hnext
          rw [List.append_assoc, Reading.untilKind_step (hgo hnext) hstart ?_, g _ behind hb,
            List.reverse_append, List.append_assoc]
          exact length_lt_append.mpr (length_lt_append.mp (ha ▸ hlt))
        · rw [Unmoved, Reading.untilKind_last hstop hs hlt]
          refine ⟨w, ha, fun before behind hb =>
            Reading.untilKind_last (hgo hb) (h before behind hb) ?_⟩
          exact fun h => hlt (ha ▸ length_lt_append.mpr (length_lt_append.mp h))

/-- Passing tokens of some kinds is a loop over passing one. -/
theorem skip_eq (among : Token.Kind → Bool) : Reading.change (Cursor.skip among) =
    Reading.untilKind (fun k => k == .eof || !among k) (fun _ => Reading.advance) () := by
  funext c
  rw [Reading.change]
  fun_induction Cursor.skip among c with
  | case1 c hend =>
    exact (Reading.untilKind_stop (by rw [isAtEnd] at hend; rw [hend]; rfl)).symm
  | case2 c hend hk ih =>
    rw [ih]
    refine (Reading.untilKind_step (b := ()) ?_ rfl (c.advance_ahead hend)).symm
    rw [isAtEnd, Bool.not_eq_true] at hend
    rw [hend, hk]
    rfl
  | case3 c hend hk =>
    exact (Reading.untilKind_stop
      (by rw [Bool.not_eq_true] at hk; rw [hk, Bool.not_false, Bool.or_true])).symm

theorem skip (among : Token.Kind → Bool) : IsLocal (Reading.change (Cursor.skip among)) := by
  rw [skip_eq]
  exact untilKind (fun _ => advance) ()

theorem andAlways {f : Cursor → Cursor} (h : IsLocal read) (hf : IsLocal (Reading.change f)) :
    IsLocal (read.andAlways f) := by
  intro c
  obtain ⟨w, ha, g⟩ := h c
  obtain ⟨x, hx, k⟩ := hf (read c).2
  refine ⟨w ++ x, by rw [ha, List.append_assoc]; exact congrArg _ hx, fun before behind hb => ?_⟩
  have hstart := g before (x ++ behind) (by rw [hx]; exact head_append hb)
  have hend := congrArg Prod.snd (k (w.reverse ++ before) behind hb)
  rw [List.append_assoc, Reading.andAlways_apply, hstart, List.reverse_append, List.append_assoc]
  exact congrArg _ hend

theorem nested (h : IsLocal read) : IsLocal (Reading.nested read) := by
  intro c
  rcases Nat.lt_or_ge c.depth c.limit with hlt | hge
  · obtain ⟨w, ha, g⟩ := h c.enter
    rw [Unmoved, Reading.nested_of_lt hlt]
    refine ⟨w, ha, fun before behind hb => ?_⟩
    rw [Reading.nested_of_lt (c := c.between before (w ++ behind)) hlt]
    exact congrArg (fun found => (found.1, found.2.leave)) (g before behind hb)
  · rw [Unmoved, Reading.nested_of_le hge]
    refine ⟨[], rfl, fun before behind hb => ?_⟩
    rw [Reading.nested_of_le (c := c.between before ([] ++ behind)) hge]
    have hlocation : (c.between before behind).enter.location = c.enter.location :=
      location_between before hb
    rw [List.nil_append, tooDeep, tooDeep, hlocation]
    rfl

theorem levels {read : Nat → Reading α} (h : ∀ k, IsLocal (read k)) :
    IsLocal fun c => read (c.limit - c.depth) c := fun c => h _ c

theorem ite {p : Prop} [Decidable p] {yes no : Reading α} (hyes : IsLocal yes) (hno : IsLocal no) :
    IsLocal (if p then yes else no) := by
  by_cases h : p
  · rwa [if_pos h]
  · rwa [if_neg h]

theorem unexpected (kinds : List Token.Kind) : IsLocal (Reading.unexpected kinds : Reading α) := by
  rw [Reading.unexpected_eq]
  exact refuseCurrent _

theorem expect (kinds : List Token.Kind) : IsLocal (Reading.expect kinds) := by
  rw [Reading.expect_eq]
  exact (look Token.kind).bind fun _ => ite (pure ()) (unexpected kinds)

theorem key (expected : List Token.Kind) : IsLocal (Member.key expected) := by
  refine (look id).bind fun t => ?_
  cases t.content with
  | string | identifier => exact pure _
  | _ => exact unexpected expected

theorem colon : IsLocal Member.colon :=
  (skip _).bind fun _ => (expect _).bind fun _ => advance.bind fun _ => skip _

theorem member {owner : MemberOwner} {expected : List Token.Kind} {value : Reading Node}
    (hvalue : IsLocal value) (members : KeyedList Node) :
    IsLocal (Member.read owner expected value members) := by
  refine (key expected).bind fun k => advance.bind fun _ => colon.bind fun _ =>
    hvalue.bind fun n => ?_
  cases members.insert? k.1 k.2 n with
  | none => exact refuse _
  | some more => exact (skip _).bind fun _ => pure more

end Reading.IsLocal

/-- Composed readings look no further. -/
theorem Composed.isLocal {lax : Prop} (h : Composed lax read) : read.IsLocal := by
  induction h with
  | pure a => exact .pure a
  | look see => exact .look see
  | advance => exact .advance
  | skip => exact .skip _
  | record refs events => exact .record refs events
  | refuse => exact .refuseCurrent _
  | bind _ _ hfirst hnext => exact hfirst.bind hnext
  | nested _ ih => exact ih.nested
  | untilKind a _ ih => exact .untilKind ih a
  | levels _ ih => exact .levels ih
  | member _ members ih => exact ih.member members
  | thenGap _ _ ih => exact ih.andAlways (.skip _)

end Local

/-! ## What is wrong, and where -/

/-- An error between two parts of some tokens. It is located at a key in the first part or
at the first token of the second part; only where `lax` holds, it may be located at the
first token of a gap before that. -/
inductive Blamed (lax : Prop) (w behind : List Token) (e : ParseError) : Prop
  | key (twice : e.cause.isDuplicate = true) (t : Token) (passed : t ∈ w)
      (isKey : t.kind ∈ [Token.Kind.identifier, .string]) (location : e.location = t.start)
  | found (once : e.cause.isDuplicate = false) (v g : List Token) (passed : w = v ++ g)
      (gap : Gap g)
      (isLax : g ≠ [] → lax) (location : e.location = ((g ++ behind).headD .missingEof).start)

/-- Every error is located so. -/
def Reading.Blames {α : Type} (lax : Prop) (read : Reading α) : Prop :=
  ∀ c d e, read c = (.error e, d) → ∃ w, c.ahead = w ++ d.ahead ∧ Blamed lax w d.ahead e

section Blames

variable {α β : Type} {lax : Prop} {c d : Cursor} {read : Reading α} {w behind : List Token}
  {e : ParseError}

/-- More tokens before. -/
theorem Blamed.prepend (h : Blamed lax w behind e) (x : List Token) :
    Blamed lax (x ++ w) behind e := by
  cases h with
  | key twice t passed isKey location =>
    exact .key twice t (List.mem_append_right x passed) isKey location
  | found once v g passed gap isLax location =>
    exact .found once (x ++ v) g (by rw [passed, List.append_assoc]) gap isLax location

theorem Blamed.here (once : e.cause.isDuplicate = false) (location : e.location = d.location) :
    Blamed lax [] d.ahead e :=
  .found once [] [] rfl .nil (fun h => absurd rfl h) location

/-- A gap behind. -/
theorem Blamed.skipGap (h : Blamed lax w d.ahead e) (isLax : lax) :
    ∃ g, d.ahead = g ++ d.skipGap.ahead ∧ Blamed lax (w ++ g) d.skipGap.ahead e := by
  have hmove := moved_skipGap d
  refine ⟨_, hmove.ahead, ?_⟩
  cases h with
  | key twice t passed isKey location =>
    exact .key twice t (List.mem_append_left _ passed) isKey location
  | found once v g passed gap _ location =>
    refine .found once v _ (by rw [passed, List.append_assoc]) (gap.append (gap_ahead d))
      (fun _ => isLax) ?_
    rw [location, List.append_assoc, ← hmove.ahead]

theorem blames_of_ok (h : ∀ c, ∃ a d, read c = (.ok a, d)) : read.Blames lax := by
  intro c d e hread
  obtain ⟨a, f, hok⟩ := h c
  cases hok.symm.trans hread

theorem blames_refuseCurrent {cause : Token → ParseError.Cause}
    (once : ∀ t, (cause t).isDuplicate = false) :
    (Reading.refuseCurrent cause : Reading α).Blames lax := by
  intro c d e hread
  cases hread
  exact ⟨[], rfl, .here (once _) rfl⟩

/-- An error of a sequence is one of the first step, or of the rest behind it. -/
theorem Reading.Blames.bind {next : α → Reading β} (hread : read.IsLocal) (hfirst : read.Blames lax)
    (hnext : ∀ a, (next a).Blames lax) : (read >>= next).Blames lax := by
  intro c d e h
  rcases hf : read c with ⟨answer, f⟩
  cases answer with
  | error e =>
    rw [Reading.bind_of_error hf] at h
    cases h
    exact hfirst c d e hf
  | ok a =>
    rw [Reading.bind_of_ok hf] at h
    obtain ⟨v, hv, -⟩ := hread c
    rw [hf] at hv
    obtain ⟨w, hw, hblamed⟩ := hnext a f d e h
    exact ⟨v ++ w, by rw [hv, hw, List.append_assoc], hblamed.prepend v⟩

theorem Reading.Blames.untilKind {stop : Token.Kind → Bool} {step : α → Reading α}
    (hlocal : ∀ a, (step a).IsLocal) (hstep : ∀ a, (step a).Blames lax) (a : α) :
    (Reading.untilKind stop step a).Blames lax := by
  intro c d e h
  induction hn : c.ahead.length using Nat.strongRecOn generalizing a c with
  | ind n ih =>
    subst hn
    by_cases hstop : stop c.kind = true
    · rw [Reading.untilKind_stop hstop] at h
      cases h
    · rw [Bool.not_eq_true] at hstop
      rcases hs : step a c with ⟨answer, f⟩
      cases answer with
      | error e =>
        rw [Reading.untilKind_error hstop hs] at h
        cases h
        exact hstep a c d e hs
      | ok b =>
        by_cases hlt : f.ahead.length < c.ahead.length
        · rw [Reading.untilKind_step hstop hs hlt] at h
          obtain ⟨v, hv, -⟩ := hlocal a c
          rw [hs] at hv
          obtain ⟨w, hw, hblamed⟩ := ih _ hlt b f h rfl
          exact ⟨v ++ w, by rw [hv, hw, List.append_assoc], hblamed.prepend v⟩
        · rw [Reading.untilKind_last hstop hs hlt] at h
          cases h

theorem Reading.Blames.nested (h : read.Blames lax) : (Reading.nested read).Blames lax := by
  intro c d e hread
  rcases Nat.lt_or_ge c.depth c.limit with hlt | hge
  · rw [Reading.nested_of_lt hlt] at hread
    obtain ⟨herror, rfl⟩ := Prod.mk.inj hread
    obtain ⟨w, hw, hblamed⟩ := h c.enter (read c.enter).2 e (Prod.ext herror rfl)
    exact ⟨w, hw, hblamed⟩
  · rw [Reading.nested_of_le hge] at hread
    cases hread
    exact ⟨[], rfl, .here rfl rfl⟩

theorem blames_expect (kinds : List Token.Kind) : (Reading.expect kinds).Blames lax := by
  intro c d e hread
  rw [Reading.expect_eq, Reading.kind_bind] at hread
  by_cases h : c.kind ∈ kinds
  · rw [if_pos h] at hread
    cases hread
  · rw [if_neg h, Reading.unexpected_eq] at hread
    exact blames_refuseCurrent (Token.unexpectedCause_current kinds) c d e hread

theorem blames_key (expected : List Token.Kind) : (Member.key expected).Blames lax := by
  intro c d e hread
  rw [Member.key, Reading.current_bind] at hread
  cases hcontent : c.current.content with
  | string | identifier =>
    rw [hcontent] at hread
    cases hread
  | _ =>
    rw [hcontent] at hread
    dsimp only at hread
    rw [Reading.unexpected_eq] at hread
    exact blames_refuseCurrent (Token.unexpectedCause_current expected) c d e hread

/-- Behind a key an error may also be that the key is there already. -/
theorem Reading.Blames.memberRest {owner : MemberOwner} {value : Reading Node}
    (hlocal : value.IsLocal) (hvalue : value.Blames lax) (members : KeyedList Node)
    (key : Bytes × Location) (h : Member.readRest owner value members key c = (.error e, d)) :
    ∃ w, c.ahead = w ++ d.ahead ∧
      (Blamed lax w d.ahead e ∨ e.cause.isDuplicate = true ∧ e.location = key.2) := by
  have hcolon : Member.colon.Blames lax :=
    .bind (.skip _) (blames_of_ok fun c => ⟨_, _, rfl⟩) fun _ =>
      .bind (.expect _) (blames_expect _) fun _ => blames_of_ok fun c => ⟨_, _, rfl⟩
  have hfirst : (Member.colon >>= fun _ => value).Blames lax := .bind .colon hcolon fun _ => hvalue
  obtain ⟨w, hw, -⟩ := Reading.IsLocal.colon.bind (fun _ => hlocal) c
  rw [Member.readRest, ← Reading.bind_assoc] at h
  rcases hf : (Member.colon >>= fun _ => value) c with ⟨answer, f⟩
  rw [hf] at hw
  cases answer with
  | error e =>
    rw [Reading.bind_of_error hf] at h
    cases h
    obtain ⟨w, hw, hblamed⟩ := hfirst c d e hf
    exact ⟨w, hw, .inl hblamed⟩
  | ok n =>
    rw [Reading.bind_of_ok hf] at h
    rcases Member.insert_apply owner key members n f with hi | ⟨more, hi⟩
    · rw [hi] at h
      cases h
      exact ⟨w, hw, .inr ⟨rfl, rfl⟩⟩
    · rw [hi] at h
      cases h

theorem Reading.Blames.member {owner : MemberOwner} {expected : List Token.Kind}
    {value : Reading Node} (hlocal : value.IsLocal) (hvalue : value.Blames lax)
    (members : KeyedList Node) : (Member.read owner expected value members).Blames lax := by
  intro c d e hread
  rw [Member.read_eq] at hread
  rcases hkey : Member.key expected c with ⟨answer, f⟩
  cases answer with
  | error e =>
    rw [Reading.bind_of_error hkey] at hread
    cases hread
    exact blames_key expected c d e hkey
  | ok k =>
    rw [Reading.bind_of_ok hkey, Reading.advance_bind] at hread
    obtain ⟨hisKey, hplace, rfl⟩ := Member.key_eq_ok.mp hkey
    have hmove := (moved_advance hisKey.ne_eof).ahead
    obtain ⟨w, hw, hblamed⟩ := Reading.Blames.memberRest hlocal hvalue members k hread
    refine ⟨[f.current] ++ w, by rw [hmove, hw, List.append_assoc], ?_⟩
    rcases hblamed with hblamed | ⟨htwice, hlocation⟩
    · exact hblamed.prepend [f.current]
    · exact .key htwice f.current List.mem_cons_self hisKey.kind_mem (hlocation.trans hplace)

/-- Composed readings blame what they stop at, or a key. -/
theorem Composed.blames (h : Composed lax read) : read.Blames lax := by
  induction h with
  | pure | look | advance | skip | record => exact blames_of_ok fun c => ⟨_, _, rfl⟩
  | refuse once _ => exact blames_refuseCurrent once
  | bind first _ hfirst hnext => exact .bind first.isLocal hfirst hnext
  | nested _ ih => exact ih.nested
  | untilKind a step ih => exact .untilKind (fun a => (step a).isLocal) ih a
  | levels _ ih => exact fun c => ih _ c
  | member value members ih => exact .member value.isLocal ih members
  | @thenGap _ read isLax _ ih =>
    intro c d e hread
    obtain ⟨herror, rfl⟩ := Prod.mk.inj hread
    obtain ⟨w, hw, hblamed⟩ := ih c (read c).2 e (Prod.ext herror rfl)
    obtain ⟨g, hg, hblamed⟩ := hblamed.skipGap isLax
    exact ⟨w ++ g, by rw [List.append_assoc]; exact hw.trans (congrArg _ hg), hblamed⟩

end Blames

/-! ## Leading traits -/

section Leading

theorem Trait.readDocs_local : Trait.readDocs.IsLocal :=
  .bind (.skip _) fun _ => .bind (.look id) fun _ =>
    .ite (.bind (.skip _) fun _ => .bind .takeDocs fun _ => .pure _) (.pure none)

theorem Trait.leading_local (r : Resolver) : (readLeading r).IsLocal :=
  readDocs_local.bind fun docs => (Composed.behindDocs trivial r docs).isLocal

theorem Trait.leading_blames (r : Resolver) : (readLeading r).Blames True := by
  refine .bind readDocs_local (blames_of_ok fun c => ?_) fun docs =>
    (Composed.behindDocs trivial r docs).blames
  obtain ⟨docs, d, h, -⟩ := readLeading_apply r c
  exact ⟨docs, d, h⟩

end Leading

/-! ## The laws -/

namespace Cursor

/-- What has been gathered, without the tokens. -/
def gathered (c : Cursor) : Cursor := c.between [] []

theorem getElem?_tokens (c : Cursor) (k : Nat) : c.tokens[c.index + k]? = c.ahead[k]? := by
  rw [tokens, List.getElem?_append_right (by rw [List.length_reverse]; exact Nat.le_add_right _ _),
    List.length_reverse]
  exact congrArg (c.ahead[·]?) (Nat.add_sub_cancel_left _ _)

end Cursor

/-- Wherever the tokens from the start up to the one where the reading stops are the same
and the same has been gathered before, the reading does the same. -/
def Reading.LooksNoFurther {α : Type} (read : Reading α) : Prop :=
  ∀ c c' : Cursor, c'.index = c.index → c'.gathered = c.gathered →
    (∀ k, c.index ≤ k → k ≤ (read c).2.index → c'.tokens[k]? = c.tokens[k]?) →
    (read c').1 = (read c).1 ∧ (read c').2.index = (read c).2.index ∧
      (read c').2.gathered = (read c).2.gathered

/-- A second member with the same key is located at a key that was passed, and any other
error where the reading stops; only where `lax` holds, it may be located before that, with
only trivia and documentation between. -/
def Reading.LocatesErrors {α : Type} (lax : Prop) (read : Reading α) : Prop :=
  ∀ c d e, read c = (.error e, d) →
    (e.cause.isDuplicate = true → ∃ k t, c.index ≤ k ∧ k < d.index ∧ d.tokens[k]? = some t ∧
      t.kind ∈ [Token.Kind.identifier, .string] ∧ e.location = t.start) ∧
    (e.cause.isDuplicate = false → e.location = d.location ∨
      lax ∧ ∃ k t, c.index ≤ k ∧ k < d.index ∧ d.tokens[k]? = some t ∧ e.location = t.start ∧
        ∀ j u, k ≤ j → j < d.index → d.tokens[j]? = some u → u.kind.isGap = true)

section Laws

variable {α : Type} {lax : Prop} {read : Reading α} {c : Cursor}

theorem Reading.IsLocal.passed {w : List Token} (h : read.IsLocal)
    (ha : c.ahead = w ++ (read c).2.ahead) :
    (read c).2.passed = w.reverse ++ c.passed := by
  obtain ⟨x, hx, g⟩ := h c
  have hw : w = x := List.append_cancel_right (ha.symm.trans hx)
  have hself : c.between c.passed (x ++ (read c).2.ahead) = c := by
    rw [← hx]
    rfl
  have hread := g c.passed (read c).2.ahead rfl
  rw [hself] at hread
  rw [hw]
  exact congrArg (fun found => found.2.passed) hread

theorem Reading.IsLocal.index {w : List Token} (h : read.IsLocal)
    (ha : c.ahead = w ++ (read c).2.ahead) :
    (read c).2.index = c.index + w.length := by
  rw [Cursor.index, h.passed ha, List.length_append, List.length_reverse, Nat.add_comm]
  rfl

theorem Reading.IsLocal.looksNoFurther (h : read.IsLocal) : read.LooksNoFurther := by
  intro c c' hindex hgathered htokens
  obtain ⟨w, ha, g⟩ := h c
  have hstop := h.index ha
  have hahead (k : Nat) (hk : k ≤ w.length) : c'.ahead[k]? = c.ahead[k]? := by
    rw [← getElem?_tokens, ← getElem?_tokens, hindex]
    exact htokens _ (Nat.le_add_right _ _) (by rw [hstop]; exact Nat.add_le_add_left hk _)
  -- What is passed and the token behind it are the same, so `c'` is `c` between other tokens.
  have htake : c'.ahead.take w.length = w := by
    have htake' : c.ahead.take w.length = w := by rw [ha, List.take_left]
    refine Eq.trans (List.ext_getElem? fun k => ?_) htake'
    rw [List.getElem?_take, List.getElem?_take]
    by_cases hk : k < w.length
    · rw [if_pos hk, if_pos hk, hahead k (Nat.le_of_lt hk)]
    · rw [if_neg hk, if_neg hk]
  have hhead : (c'.ahead.drop w.length).head? = (read c).2.ahead.head? := by
    rw [List.head?_drop, hahead _ (Nat.le_refl _), ha, List.getElem?_append_right (Nat.le_refl _),
      Nat.sub_self, List.head?_eq_getElem?]
  have hself : c' = c.between c'.passed (w ++ c'.ahead.drop w.length) := by
    have hsplit : w ++ c'.ahead.drop w.length = c'.ahead :=
      (congrArg (· ++ _) htake.symm).trans (List.take_append_drop _ _)
    have heq := congrArg (between c'.passed c'.ahead) hgathered
    rw [hsplit]
    exact heq
  have hread := g c'.passed _ hhead
  rw [← hself] at hread
  rw [hread]
  refine ⟨rfl, ?_, rfl⟩
  rw [hstop, ← hindex, Nat.add_comm]
  exact (List.length_append).trans (congrArg (· + _) List.length_reverse)

theorem Reading.IsLocal.locatesErrors (h : read.IsLocal) (hblames : read.Blames lax) :
    read.LocatesErrors lax := by
  intro c d e hread
  obtain ⟨w, ha, hblamed⟩ := hblames c d e hread
  have hd : (read c).2 = d := congrArg Prod.snd hread
  have hstop : c.ahead = w ++ (read c).2.ahead := by rw [hd, ha]
  have hpassed := h.passed hstop
  have hindex := h.index hstop
  rw [hd] at hpassed hindex
  have htoken (k : Nat) : d.tokens[c.index + k]? = (w ++ d.ahead)[k]? := by
    rw [← ha, ← getElem?_tokens, tokens, tokens, hpassed, ha, List.reverse_append,
      List.reverse_reverse, List.append_assoc]
  cases hblamed with
  | key twice t passed isKey location =>
    refine ⟨fun _ => ?_, fun once => absurd (once.symm.trans twice) (by decide)⟩
    obtain ⟨k, hk, rfl⟩ := List.mem_iff_getElem.mp passed
    refine ⟨c.index + k, w[k], Nat.le_add_right _ _,
      by rw [hindex]; exact Nat.add_lt_add_left hk _, ?_, isKey, location⟩
    rw [htoken, List.getElem?_append_left hk, List.getElem?_eq_getElem hk]
  | found once v g passed gap isLax location =>
    refine ⟨fun twice => absurd (once.symm.trans twice) (by decide), fun _ => ?_⟩
    cases g with
    | nil => exact .inl location
    | cons t g =>
      refine .inr ⟨isLax (List.cons_ne_nil _ _), c.index + v.length, t,
        Nat.le_add_right _ _, ?_, ?_, location, ?_⟩
      · rw [hindex, passed, List.length_append, List.length_cons]
        omega
      · rw [htoken, passed, List.append_assoc, List.getElem?_append_right (Nat.le_refl _),
          Nat.sub_self]
        rfl
      · intro j u hj hlt hu
        obtain ⟨i, rfl⟩ := Nat.exists_eq_add_of_le hj
        rw [Nat.add_assoc, htoken, passed, List.append_assoc,
          List.getElem?_append_right (Nat.le_add_right _ _), Nat.add_sub_cancel_left,
          List.getElem?_append_left ?_] at hu
        · exact gap u (List.mem_of_getElem? hu)
        · rw [hindex, passed, List.length_append] at hlt
          omega

/-- Errors are located so for every way to read, and nothing else is ever looked at. Between
the parentheses of a trait, trivia and documentation are passed also behind an error. -/
theorem readings_look_no_further_than_the_token_they_stop_at (r : Resolver) :
    (∀ given, (Node.read r given).LooksNoFurther ∧ (Node.read r given).LocatesErrors False) ∧
      (ShapeId.read.LooksNoFurther ∧ ShapeId.read.LocatesErrors False) ∧
      ((Trait.read r).LooksNoFurther ∧ (Trait.read r).LocatesErrors True) ∧
      ((Trait.readAll r).LooksNoFurther ∧ (Trait.readAll r).LocatesErrors True) ∧
      ((Trait.readLeading r).LooksNoFurther ∧ (Trait.readLeading r).LocatesErrors True) ∧
      ((Apply.read r).LooksNoFurther ∧ (Apply.read r).LocatesErrors True) ∧
      ((Apply.readAll r).LooksNoFurther ∧ (Apply.readAll r).LocatesErrors True) := by
  have hcomposed {β : Type} {lax : Prop} {read : Reading β} (h : Composed lax read) :
      read.LooksNoFurther ∧ read.LocatesErrors lax :=
    ⟨h.isLocal.looksNoFurther, h.isLocal.locatesErrors h.blames⟩
  have hleading := Trait.leading_local r
  exact ⟨fun given => hcomposed (.value r given), hcomposed .shapeId, hcomposed (.trait trivial r),
    hcomposed (.traits trivial r),
    ⟨hleading.looksNoFurther, hleading.locatesErrors (Trait.leading_blames r)⟩,
    hcomposed (.statement trivial r), hcomposed (.document trivial r)⟩

end Laws

/-- The error that an answer is. -/
def errorOf {α : Type} : Except ParseError α → Option ParseError
  | .ok _ => none
  | .error e => some e

theorem errorOf_eq_some {α : Type} {answer : Except ParseError α} {e : ParseError}
    (h : errorOf answer = some e) : answer = .error e := by
  cases answer with
  | ok a => cases h
  | error f => rw [Option.some.inj h]

/-- In `@t([a. 1])` a name is missing where the blank stands, but the reading stops behind
the blank. -/
theorem the_blank_behind_a_dot_is_wrong_and_passed :
    let found := Trait.read .forward (.ofTokens (Source.mk [] (utf8 "@t([a. 1])")).tokens 64)
    let place : Location := ⟨[], 1, 7, 6, 1⟩
    errorOf found.1 = some ⟨.unexpected ⟨.space, utf8 " ", place, place⟩ [.identifier], place⟩ ∧
      found.2.location = ⟨[], 1, 8, 7, 1⟩ ∧ ¬ (Trait.read .forward).LocatesErrors False := by
  intro found place
  have herror : errorOf found.1 =
      some ⟨.unexpected ⟨.space, utf8 " ", place, place⟩ [.identifier], place⟩ := by decide +kernel
  have hstop : found.2.location = ⟨[], 1, 8, 7, 1⟩ := by decide +kernel
  refine ⟨herror, hstop, fun h => ?_⟩
  rcases (h _ found.2 _ (Prod.ext (errorOf_eq_some herror) rfl)).2 rfl with hlocation | hlax
  · rw [hstop] at hlocation
    exact absurd hlocation (by decide)
  · exact hlax.1

end ShapeTraits
