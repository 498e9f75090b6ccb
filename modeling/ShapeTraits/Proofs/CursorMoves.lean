-- How a cursor moves: which tokens it passes, which names it keeps for later,
-- and how deep the nesting goes on the way. Every step of a reading that
-- succeeds is such a move.
import ShapeTraits.Resolver

namespace ShapeTraits

namespace Cursor

/-! ## Moves -/

/-- On the way from `c` to `d` the tokens `w` are passed, the names `refs` are
kept, and the nesting goes at most `reach` levels deeper and back again. -/
structure Moved (c d : Cursor) (w : List Token) (refs : List Reference) (reach : Nat) : Prop where
  ahead : c.ahead = w ++ d.ahead
  noEnd : ∀ t ∈ w, t.kind ≠ .eof
  passed : d.passed = w.reverse ++ c.passed
  references : d.references = c.references ++ refs
  limit : d.limit = c.limit
  depth : d.depth = c.depth
  deepest : d.deepest ≤ max c.deepest (c.depth + reach)

namespace Moved

variable {c d e : Cursor} {w x : List Token} {refs later : List Reference} {reach k : Nat}

theorem refl (c : Cursor) : Moved c c [] [] 0 :=
  ⟨rfl, List.forall_mem_nil _, rfl, (List.append_nil _).symm, rfl, rfl, Nat.le_max_left _ _⟩

theorem trans (h : Moved c d w refs reach) (g : Moved d e x later k) :
    Moved c e (w ++ x) (refs ++ later) (max reach k) where
  ahead := by rw [h.ahead, g.ahead, List.append_assoc]
  noEnd := fun t ht => (List.mem_append.mp ht).elim (h.noEnd t) (g.noEnd t)
  passed := by rw [g.passed, h.passed, List.reverse_append, List.append_assoc]
  references := by rw [g.references, h.references, List.append_assoc]
  limit := g.limit.trans h.limit
  depth := g.depth.trans h.depth
  deepest := by
    have h1 := h.deepest
    have h2 := g.deepest
    have h3 := h.depth
    omega

/-- A move that keeps no names, behind another. -/
theorem thenQuiet (h : Moved c d w refs reach) (g : Moved d e x [] 0) :
    Moved c e (w ++ x) refs reach := by
  have := h.trans g
  rwa [List.append_nil, Nat.max_zero] at this

/-- A move that keeps no names, before another. -/
theorem afterQuiet (g : Moved d e x later k) (h : Moved c d w [] 0) :
    Moved c e (w ++ x) later k := by
  have := h.trans g
  rwa [List.nil_append, Nat.zero_max] at this

theorem levels (h : Moved c d w refs reach) : d.limit - d.depth = c.limit - c.depth := by
  rw [h.limit, h.depth]

theorem ahead_lt (h : Moved c d w refs reach) (hw : w ≠ []) : d.ahead.length < c.ahead.length := by
  have := List.length_pos_iff.mpr hw
  rw [h.ahead, List.length_append]
  omega

end Moved

/-! ## The current token -/

variable {c d : Cursor} {w : List Token} {refs : List Reference} {reach : Nat} {t : Token}
  {rest : List Token}

theorem current_of_ahead (h : c.ahead = t :: rest) : c.current = t := by
  rw [current, h, List.headD_cons]

theorem kind_of_ahead (h : c.ahead = t :: rest) : c.kind = t.kind := by
  rw [kind, current_of_ahead h]

theorem location_of_ahead (h : c.ahead = t :: rest) : c.location = t.start := by
  rw [location, current_of_ahead h]

theorem ahead_eq_cons (h : c.kind ≠ .eof) : c.ahead = c.current :: c.ahead.tail := by
  cases ha : c.ahead with
  | nil => exact absurd (by rw [kind, current, ha]; rfl) h
  | cons t rest => rw [current_of_ahead ha]; rfl

/-! ## The first cursor -/

/-- An end that is missing is added behind everything. -/
theorem ofTokens_ahead (w rest : List Token) (limit : Nat) :
    ∃ more, (ofTokens (w ++ t :: rest) limit).ahead = w ++ t :: more := by
  unfold ofTokens
  split
  · exact ⟨rest, rfl⟩
  · exact ⟨rest ++ [.missingEof], by simp⟩

theorem ofTokens_ahead_of_end (ht : t.kind = .eof) (w : List Token) (limit : Nat) :
    (ofTokens (w ++ [t]) limit).ahead = w ++ [t] := by
  simp [ofTokens, ht]

/-! ## Moving on -/

theorem dropDocs_frame (c : Cursor) (l : Location) :
    (c.dropDocs l).references = c.references ∧ (c.dropDocs l).limit = c.limit ∧
      (c.dropDocs l).depth = c.depth ∧ (c.dropDocs l).deepest = c.deepest := by
  unfold dropDocs
  split
  · exact ⟨rfl, rfl, rfl, rfl⟩
  · exact ⟨rfl, rfl, rfl, rfl⟩

theorem take_of_doc {line : Bytes} (h : t.content = .docComment line) (c : Cursor) :
    c.take t = { c with docs := c.docs ++ [line] } := by
  rw [take, h]

theorem take_of_trivia (h : t.kind.isTrivia = true) (c : Cursor) : c.take t = c := by
  rw [Token.kind] at h
  rw [take]
  cases hcontent : t.content with
  | docComment line =>
    rw [hcontent] at h
    cases h
  | _ =>
    rw [hcontent] at h
    exact if_pos h

theorem take_of_content (h : t.kind.isGap = false) (c : Cursor) :
    c.take t = c.dropDocs t.start := by
  rw [Token.Kind.isGap, Bool.or_eq_false_iff, Token.kind] at h
  rw [take]
  cases hcontent : t.content with
  | docComment line =>
    rw [hcontent] at h
    cases h.2
  | _ =>
    rw [hcontent] at h
    exact if_neg (by rw [h.1]; decide)

theorem take_frame (c : Cursor) (t : Token) :
    (c.take t).references = c.references ∧ (c.take t).limit = c.limit ∧
      (c.take t).depth = c.depth ∧ (c.take t).deepest = c.deepest := by
  unfold take
  split
  · exact ⟨rfl, rfl, rfl, rfl⟩
  · split
    · exact ⟨rfl, rfl, rfl, rfl⟩
    · exact dropDocs_frame c t.start

theorem advance_eq (c : Cursor) : c.advance = match c.ahead with
    | [] => c
    | t :: rest =>
      if t.kind = .eof then c else { c.take t with passed := t :: c.passed, ahead := rest } :=
  rfl

theorem advance_of_ahead (h : c.ahead = t :: rest) (ht : t.kind ≠ .eof) :
    c.advance = { c.take t with passed := t :: c.passed, ahead := rest } := by
  rw [advance_eq, h]
  exact if_neg ht

/-- What is ahead of the next token depends on nothing but what is ahead. -/
theorem advance_ahead_congr {c' : Cursor} (h : c'.ahead = c.ahead) :
    c'.advance.ahead = c.advance.ahead := by
  rw [advance_eq, advance_eq, h]
  cases c.ahead with
  | nil => exact h
  | cons t rest =>
    dsimp only
    split
    · exact h
    · rfl

theorem moved_advance_of_ahead (h : c.ahead = t :: rest) (ht : t.kind ≠ .eof) :
    Moved c c.advance [t] [] 0 := by
  obtain ⟨hr, hl, hd, hm⟩ := take_frame c t
  rw [advance_of_ahead h ht]
  exact ⟨h, fun u hu => List.mem_singleton.mp hu ▸ ht, rfl,
    by rw [List.append_nil]; exact hr, hl, hd, by rw [hm]; exact Nat.le_max_left _ _⟩

theorem advance_ahead_of (h : c.ahead = t :: rest) (ht : t.kind ≠ .eof) :
    c.advance.ahead = rest := by
  have := (moved_advance_of_ahead h ht).ahead
  rw [h] at this
  exact (List.cons.inj this).2.symm

theorem moved_advance (h : c.kind ≠ .eof) : Moved c c.advance [c.current] [] 0 :=
  moved_advance_of_ahead (ahead_eq_cons h) h

/-- Passing tokens of some kinds stops at the first token of another kind. -/
theorem moved_skip {among : Token.Kind → Bool} (heof : among .eof = false) (c : Cursor) :
    Moved c (c.skip among) (c.ahead.takeWhile fun t => among t.kind) [] 0 := by
  fun_induction skip among c with
  | case1 c hend =>
    rw [isAtEnd, beq_iff_eq] at hend
    cases ha : c.ahead with
    | nil => exact .refl c
    | cons t rest =>
      rw [kind_of_ahead ha] at hend
      rw [List.takeWhile_cons_of_neg (by rw [hend, heof]; simp)]
      exact .refl c
  | case2 c hend hk ih =>
    rw [isAtEnd, beq_iff_eq] at hend
    have ha := ahead_eq_cons hend
    have hmove := (moved_advance hend).trans ih
    rw [ha, List.takeWhile_cons_of_pos (p := fun t : Token => among t.kind) hk]
    rwa [advance_ahead_of ha hend] at hmove
  | case3 c hend hk =>
    rw [isAtEnd, beq_iff_eq] at hend
    rw [ahead_eq_cons hend, List.takeWhile_cons_of_neg (p := fun t : Token => among t.kind) hk]
    exact .refl c

theorem skip_ahead {among : Token.Kind → Bool} (heof : among .eof = false) (c : Cursor) :
    (c.skip among).ahead = c.ahead.dropWhile fun t => among t.kind := by
  have hsplit := List.takeWhile_append_dropWhile (p := fun t : Token => among t.kind) (l := c.ahead)
  exact List.append_cancel_left ((moved_skip heof c).ahead.symm.trans hsplit.symm)

theorem moved_skipGap (c : Cursor) :
    Moved c c.skipGap (c.ahead.takeWhile fun t => t.kind.isGap) [] 0 := moved_skip rfl c

theorem moved_skipTrivia (c : Cursor) :
    Moved c c.skipTrivia (c.ahead.takeWhile fun t => t.kind.isTrivia) [] 0 := moved_skip rfl c

theorem moved_note (c : Cursor) (e : Log.Event) : Moved c (c.note e) [] [] 0 :=
  ⟨rfl, List.forall_mem_nil _, rfl, (List.append_nil _).symm, rfl, rfl, Nat.le_max_left _ _⟩

theorem moved_takeDocs (c : Cursor) : Moved c c.takeDocs.2 [] [] 0 := by
  unfold takeDocs
  split
  · exact .refl c
  · exact ⟨rfl, List.forall_mem_nil _, rfl, (List.append_nil _).symm, rfl, rfl, Nat.le_max_left _ _⟩

theorem moved_keep (c : Cursor) (name : Bytes) (l : Location) :
    Moved c (Resolver.keep c name l) [] [⟨name, l⟩] 0 :=
  ⟨rfl, List.forall_mem_nil _, rfl, rfl, rfl, rfl, Nat.le_max_left _ _⟩

/-- A move one level down is a move here that goes one level deeper. -/
theorem Moved.leave (h : Moved c.enter d w refs reach) : Moved c d.leave w refs (reach + 1) where
  ahead := h.ahead
  noEnd := h.noEnd
  passed := h.passed
  references := h.references
  limit := h.limit
  depth := by
    have := h.depth
    simp only [enter] at this
    simp only [Cursor.leave, this, Nat.add_sub_cancel]
  deepest := by
    have := h.deepest
    simp only [enter] at this
    simp only [Cursor.leave]
    omega

end Cursor

/-! ## Readings step by step -/

namespace Reading

variable {α β : Type} {c d : Cursor}

/-- A sequence that succeeds has two steps that do. -/
theorem bind_eq_ok {first : Reading α} {next : α → Reading β} {b : β} :
    (first >>= next) c = (.ok b, d) ↔
      ∃ a e, first c = (.ok a, e) ∧ next a e = (.ok b, d) := by
  rw [bind_apply]
  constructor
  · intro h
    split at h
    · exact ⟨_, _, ‹_›, h⟩
    · cases h
  · rintro ⟨a, e, hfirst, hnext⟩
    rw [hfirst]
    exact hnext

theorem bind_of_ok {first : Reading α} {next : α → Reading β} {a : α} (h : first c = (.ok a, d)) :
    (first >>= next) c = next a d := by
  rw [bind_apply, h]

theorem bind_of_error {first : Reading α} {next : α → Reading β} {e : ParseError}
    (h : first c = (.error e, d)) : (first >>= next) c = (.error e, d) := by
  rw [bind_apply, h]

theorem bind_assoc {γ : Type} (first : Reading α) (next : α → Reading β) (last : β → Reading γ) :
    (first >>= next) >>= last = first >>= fun a => next a >>= last := by
  funext c
  rw [bind_apply, bind_apply, bind_apply]
  rcases first c with ⟨answer, d⟩
  cases answer with
  | error e => rfl
  | ok a => rfl

/-- An answer of which something can be seen is no error. -/
theorem ok_of_view {found : Except ParseError α × Cursor} {view : α → β} {b : β}
    (h : found.1.toOption.map view = some b) : ∃ a, found = (.ok a, found.2) ∧ view a = b := by
  obtain ⟨answer, d⟩ := found
  cases answer with
  | error e => cases h
  | ok a => exact ⟨a, rfl, Option.some.inj h⟩

@[simp] theorem current_bind (next : Token → Reading β) (c : Cursor) :
    (current >>= next) c = next c.current c := rfl

@[simp] theorem kind_bind (next : Token.Kind → Reading β) (c : Cursor) :
    (kind >>= next) c = next c.kind c := rfl

@[simp] theorem location_bind (next : Location → Reading β) (c : Cursor) :
    (location >>= next) c = next c.location c := rfl

@[simp] theorem advance_bind (next : Unit → Reading β) (c : Cursor) :
    (advance >>= next) c = next () c.advance := rfl

@[simp] theorem skipGap_bind (next : Unit → Reading β) (c : Cursor) :
    (skipGap >>= next) c = next () c.skipGap := rfl

@[simp] theorem skipTrivia_bind (next : Unit → Reading β) (c : Cursor) :
    (skipTrivia >>= next) c = next () c.skipTrivia := rfl

@[simp] theorem note_bind (event : Log.Event) (next : Unit → Reading β) (c : Cursor) :
    (note event >>= next) c = next () (c.note event) := rfl

@[simp] theorem takeDocs_bind (next : Option Bytes → Reading β) (c : Cursor) :
    (takeDocs >>= next) c = next c.takeDocs.1 c.takeDocs.2 := rfl

@[simp] theorem andAlways_apply (step : Reading α) (f : Cursor → Cursor) (c : Cursor) :
    step.andAlways f c = ((step c).1, f (step c).2) := rfl

theorem expect_bind_of_mem {expected : List Token.Kind} {next : Unit → Reading β}
    (h : c.kind ∈ expected) : (expect expected >>= next) c = next () c := by
  rw [bind_apply, expect, if_pos h]

theorem expect_bind_of_not_mem {expected : List Token.Kind} {next : Unit → Reading β}
    (h : c.kind ∉ expected) :
    (expect expected >>= next) c = (.error (c.unexpected expected), c) := by
  rw [bind_apply, expect, if_neg h]

theorem expect_bind_eq_ok {expected : List Token.Kind} {next : Unit → Reading β} {b : β} :
    (expect expected >>= next) c = (.ok b, d) ↔ c.kind ∈ expected ∧ next () c = (.ok b, d) := by
  by_cases h : c.kind ∈ expected
  · rw [expect_bind_of_mem h]
    exact ⟨fun hn => ⟨h, hn⟩, fun hn => hn.2⟩
  · rw [expect_bind_of_not_mem h]
    exact ⟨fun hn => (nomatch hn), fun hn => absurd hn.1 h⟩

/-- Reading one level deeper succeeds if there is such a level and the step
succeeds there. -/
theorem nested_eq_ok {step : Reading α} {a : α} :
    nested step c = (.ok a, d) ↔
      c.depth < c.limit ∧ ∃ e, step c.enter = (.ok a, e) ∧ d = e.leave := by
  have hdeep : c.enter.isTooDeep = true ↔ ¬ c.depth < c.limit := by
    rw [Cursor.isTooDeep, decide_eq_true_eq, Nat.not_lt]
    exact Nat.lt_succ_iff
  simp only [nested]
  by_cases h : c.depth < c.limit
  · rw [if_neg fun hn => hdeep.mp hn h, andAlways_apply]
    constructor
    · intro hs
      obtain ⟨h1, h2⟩ := Prod.mk.inj hs
      exact ⟨h, (step c.enter).2, Prod.ext h1 rfl, h2.symm⟩
    · rintro ⟨-, e, hs, rfl⟩
      rw [hs]
  · rw [if_pos (hdeep.mpr h)]
    exact ⟨fun hs => (nomatch hs), fun hs => absurd hs.1 h⟩

theorem nested_of_le {step : Reading α} {c : Cursor} (h : c.limit ≤ c.depth) :
    nested step c = (.error c.enter.tooDeep, c.enter.leave) := by
  have hdeep : c.enter.isTooDeep = true := decide_eq_true (Nat.lt_succ_of_le h)
  simp only [nested]
  exact if_pos hdeep

theorem nested_of_lt {step : Reading α} {c : Cursor} (h : c.depth < c.limit) :
    nested step c = ((step c.enter).1, (step c.enter).2.leave) := by
  have hdeep : ¬ c.enter.isTooDeep = true := by
    rw [Cursor.isTooDeep, decide_eq_true_eq, Nat.not_lt]
    exact h
  simp only [nested]
  exact if_neg hdeep

theorem untilKind_stop {p : Token.Kind → Bool} {step : α → Reading α} {a : α}
    (h : p c.kind = true) : untilKind p step a c = (.ok a, c) := by
  rw [untilKind, if_pos h]

theorem untilKind_step {stop : Token.Kind → Bool} {step : α → Reading α} {a b : α}
    (hk : stop c.kind = false) (hs : step a c = (.ok b, d))
    (hlt : d.ahead.length < c.ahead.length) :
    untilKind stop step a c = untilKind stop step b d := by
  rw [untilKind, if_neg (by rw [hk]; simp), hs]
  exact if_pos hlt

/-- A step that passes no token is the last one. -/
theorem untilKind_last {stop : Token.Kind → Bool} {step : α → Reading α} {a b : α}
    (hk : stop c.kind = false) (hs : step a c = (.ok b, d))
    (hle : ¬ d.ahead.length < c.ahead.length) : untilKind stop step a c = (.ok b, d) := by
  rw [untilKind, if_neg (by rw [hk]; simp), hs]
  exact if_neg hle

theorem untilKind_error {stop : Token.Kind → Bool} {step : α → Reading α} {a : α} {e : ParseError}
    (hk : stop c.kind = false) (hs : step a c = (.error e, d)) :
    untilKind stop step a c = (.error e, d) := by
  rw [untilKind, if_neg (by rw [hk]; simp), hs]

/-- A loop step by step: what follows a step is the loop again, as long as
tokens are passed. -/
theorem untilKind_apply {stop : Token.Kind → Bool} {step : α → Reading α} (a : α) {c : Cursor}
    (h : stop c.kind = false) : untilKind stop step a c =
      (step a >>= fun b e =>
        if e.ahead.length < c.ahead.length then untilKind stop step b e else (.ok b, e)) c := by
  rw [untilKind, if_neg (by rw [h]; decide)]
  refine Eq.trans ?_ (bind_apply (step a) _ c).symm
  rcases step a c with ⟨answer, e⟩
  cases answer with
  | error error => rfl
  | ok b => rfl

/-- A loop that goes on and succeeds, over a step that always passes a token, has
a first step and the rest of the loop. -/
theorem untilKind_more {stop : Token.Kind → Bool} {step : α → Reading α} {a b : α}
    (hk : stop c.kind = false)
    (hprogress : ∀ {a' e}, step a c = (.ok a', e) → e.ahead.length < c.ahead.length)
    (h : untilKind stop step a c = (.ok b, d)) :
    ∃ a' e, step a c = (.ok a', e) ∧ e.ahead.length < c.ahead.length ∧
      untilKind stop step a' e = (.ok b, d) := by
  rw [untilKind, if_neg (by rw [hk]; simp)] at h
  split at h
  · cases h
  · next a' e hs =>
    have hlt := hprogress hs
    rw [if_pos hlt] at h
    exact ⟨a', e, hs, hlt, h⟩

end Reading

end ShapeTraits
