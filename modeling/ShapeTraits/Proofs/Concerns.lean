-- Every error is about a token: one that was the current token when the reading stopped or,
-- for a key that is there already, when the key was passed. The error is located at that
-- token, and what its cause says of the token is so.
import ShapeTraits.Proofs.Composition

namespace ShapeTraits

open Cursor Grammar

/-- The error is located at the token, and what its cause says of the token is so. -/
structure ParseError.IsAbout (e : ParseError) (t : Token) : Prop where
  location : e.location = t.start
  cause : e.cause.IsAbout t

/-- Where `I` holds of the cursor, what is wrong is wrong with a token of which `P` holds. -/
def Reading.Concerns {α : Type} (I : Cursor → Prop) (P : Token → Prop) (read : Reading α) : Prop :=
  ∀ c e d, I c → read c = (.error e, d) → ∃ t, P t ∧ e.IsAbout t

section Concerns

variable {α β : Type} {lax : Prop} {I : Cursor → Prop} {P : Token → Prop} {read : Reading α}

namespace Reading.Concerns

/-- A reading that is always answered. -/
theorem of_ok (h : ∀ c, ∃ a d, read c = (.ok a, d)) : Concerns I P read := by
  intro c e d _ hread
  obtain ⟨a, d', hok⟩ := h c
  rw [hok] at hread
  cases hread

theorem bind {next : α → Reading β} (hread : Concerns I P read) (hkeep : ∀ c, I c → I (read c).2)
    (hnext : ∀ a, Concerns I P (next a)) : Concerns I P (read >>= next) := by
  intro c e d hc h
  have hkept := hkeep c hc
  rcases hfirst : read c with ⟨answer, f⟩
  rw [hfirst] at hkept
  cases answer with
  | error e' =>
    rw [bind_of_error hfirst] at h
    cases h
    exact hread c e d hc hfirst
  | ok a =>
    rw [bind_of_ok hfirst] at h
    exact hnext a f e d hkept h

theorem untilKind {stop : Token.Kind → Bool} {step : α → Reading α}
    (hstep : ∀ a, Concerns I P (step a))
    (hkeep : ∀ a c, I c → I (step a c).2) (a : α) :
    Concerns I P (Reading.untilKind stop step a) := by
  intro c e d hc h
  induction hn : c.ahead.length using Nat.strongRecOn generalizing a c with
  | ind n ih =>
    subst hn
    by_cases hstop : stop c.kind = true
    · rw [untilKind_stop hstop] at h
      cases h
    rw [Bool.not_eq_true] at hstop
    have hkept := hkeep a c hc
    rcases hs : step a c with ⟨answer, f⟩
    rw [hs] at hkept
    cases answer with
    | error e' =>
      rw [untilKind_error hstop hs] at h
      cases h
      exact hstep a c e d hc hs
    | ok b =>
      by_cases hlt : f.ahead.length < c.ahead.length
      · rw [untilKind_step hstop hs hlt] at h
        exact ih _ hlt b f hkept h rfl
      · rw [untilKind_last hstop hs hlt] at h
        cases h

variable (hP : ∀ c, I c → P c.current)

include hP

/-- What is wrong with the current token is said of it. -/
theorem refuseCurrent {cause : Token → ParseError.Cause} (about : ∀ t, (cause t).IsAbout t) :
    Concerns I P (Reading.refuseCurrent cause : Reading α) := by
  intro c e d hc h
  cases h
  exact ⟨c.current, hP c hc, rfl, about c.current⟩

theorem unexpected (kinds : List Token.Kind) :
    Concerns I P (Reading.unexpected kinds : Reading α) := by
  rw [Reading.unexpected_eq]
  exact refuseCurrent hP (Token.unexpectedCause_about kinds)

theorem expect (kinds : List Token.Kind) : Concerns I P (Reading.expect kinds) := by
  intro c e d hc h
  rw [Reading.expect_eq, Reading.kind_bind] at h
  by_cases hk : c.kind ∈ kinds
  · rw [if_pos hk] at h
    cases h
  · rw [if_neg hk] at h
    exact unexpected hP kinds c e d hc h

theorem key (expected : List Token.Kind) : Concerns I P (Member.key expected) := by
  intro c e d hc h
  rw [Member.key, Reading.current_bind] at h
  cases hcontent : c.current.content with
  | string | identifier =>
    rw [hcontent] at h
    cases h
  | _ =>
    rw [hcontent] at h
    exact unexpected hP expected c e d hc h

theorem nested (hI : Kept I) (hread : Concerns I P read) : Concerns I P (Reading.nested read) := by
  intro c e d hc h
  rcases Nat.lt_or_ge c.depth c.limit with hlt | hge
  · rw [nested_of_lt hlt] at h
    obtain ⟨herror, -⟩ := Prod.mk.inj h
    exact hread c.enter e _ (hI.enter hc) (Prod.ext herror rfl)
  · rw [nested_of_le hge] at h
    cases h
    exact ⟨c.enter.current, hP _ (hI.enter hc), rfl, trivial⟩

theorem colon (hI : Kept I) : Concerns I P Member.colon :=
  .bind (of_ok fun c => ⟨_, _, rfl⟩) (fun _ hc => hI.skipGap hc) fun _ =>
    .bind (expect hP _) (fun c hc => by rwa [Reading.expect_stays]) fun _ =>
      of_ok fun c => ⟨_, _, rfl⟩

/-- A member that is not new is wrong where its key stands. -/
theorem member (hI : Kept I) {owner : MemberOwner} {expected : List Token.Kind}
    {value : Reading Node} (hvalue : Concerns I P value) (members : KeyedList Node) :
    Concerns I P (Member.read owner expected value members) := by
  intro c e d hc h
  rw [Member.read_eq] at h
  rcases hkey : Member.key expected c with ⟨answer, f⟩
  cases answer with
  | error e' =>
    rw [bind_of_error hkey] at h
    cases h
    exact key hP expected c e d hc hkey
  | ok k =>
    obtain ⟨hisKey, hplace, rfl⟩ := Member.key_eq_ok.mp hkey
    rw [bind_of_ok hkey, advance_bind, Member.readRest, ← bind_assoc] at h
    have hfirst : Concerns I P (Member.colon >>= fun _ => value) :=
      .bind (colon hP hI) (fun _ hc => hI.colon hc) fun _ => hvalue
    rcases hf : (Member.colon >>= fun _ => value) f.advance with ⟨answer, g⟩
    cases answer with
    | error e' =>
      rw [bind_of_error hf] at h
      cases h
      exact hfirst _ e d (hI.advance hc) hf
    | ok n =>
      rw [bind_of_ok hf] at h
      rcases Member.insert_apply owner k members n g with hi | ⟨more, hi⟩
      · rw [hi] at h
        cases h
        exact ⟨f.current, hP f hc, hplace, hisKey⟩
      · rw [hi] at h
        cases h

end Reading.Concerns

/-- What every step keeps tells of which tokens the errors of a composed reading can be. -/
theorem Composed.concerns (h : Composed lax read) (hI : Kept I) (hP : ∀ c, I c → P c.current) :
    read.Concerns I P := by
  induction h with
  | pure | look | advance | skip | record => exact .of_ok fun c => ⟨_, _, rfl⟩
  | refuse _ about => exact .refuseCurrent hP about
  | bind first _ hread hnext => exact .bind hread (first.keeps hI) hnext
  | nested _ ih => exact .nested hP hI ih
  | untilKind a step ih => exact .untilKind ih (fun a => (step a).keeps hI) a
  | levels _ ih => exact fun c => ih _ c
  | member _ members ih => exact .member hP hI ih members
  | thenGap _ _ ih =>
    intro c e d hc hread
    obtain ⟨herror, -⟩ := Prod.mk.inj hread
    exact ih c e _ hc (Prod.ext herror rfl)

/-- The same for leading traits, whose documentation is taken besides. -/
theorem Trait.concerns_leading (hI : Kept I) (hP : ∀ c, I c → P c.current)
    (htake : ∀ c, I c → I c.takeDocs.2) (r : Resolver) : (readLeading r).Concerns I P := by
  rw [readLeading_eq]
  refine .bind (.of_ok fun c => ?_) (fun _ hc => hI.docs htake hc)
    fun docs => (Composed.behindDocs trivial r docs).concerns hI hP
  obtain ⟨docs, d, h, -⟩ := readLeading_apply r c
  exact ⟨docs, d, h⟩

end Concerns

end ShapeTraits
