-- The frame of every reader: which parts of a cursor it leaves as they were, which it only
-- adds to, and how deep it goes at most. One relation says it for a single step, and is
-- closed under everything that readers are composed of, also where they refuse.
import Mathlib
import ShapeTraits.Proofs.Composition
import ShapeTraits.Token.Lexer

namespace ShapeTraits

open Cursor

/-! ## What lies between two cursors -/

/-- The last of the tokens ahead is an end, as at every cursor over the tokens of a text. -/
def Cursor.BeforeEnd (c : Cursor) : Prop := c.ahead.getLast?.map Token.kind = some .eof

theorem Cursor.dropDocs_warnings (c : Cursor) (l : Location) :
    c.warnings <+: (c.dropDocs l).warnings := by
  rw [dropDocs]
  split
  · exact List.prefix_refl _
  · exact List.prefix_append _ _

theorem Cursor.take_warnings (c : Cursor) (t : Token) : c.warnings <+: (c.take t).warnings := by
  rw [take]
  split
  · exact List.prefix_refl _
  · split
    · exact List.prefix_refl _
    · exact c.dropDocs_warnings t.start

/-- The end is never passed. -/
theorem Cursor.BeforeEnd.advance {c : Cursor} (h : c.BeforeEnd) : c.advance.BeforeEnd := by
  by_cases hk : c.kind = .eof
  · rwa [advance_of_end hk]
  · have hmove := (moved_advance hk).ahead
    rw [BeforeEnd, hmove, List.singleton_append] at h
    cases hrest : c.advance.ahead with
    | nil =>
      rw [hrest] at h
      exact absurd (Option.some.inj h) hk
    | cons t rest =>
      rw [hrest, List.getLast?_cons_cons] at h
      rwa [BeforeEnd, hrest]

/-- From `c` to `d` no token, limit or level is changed, the place and what was gathered
only grow, and the levels on the way are at most one more than the limit, or than `c` is
deep already. -/
structure Framed (c d : Cursor) : Prop where
  tokens : d.tokens = c.tokens
  limit : d.limit = c.limit
  depth : d.depth = c.depth
  deepest : d.deepest ≤ max c.deepest (max c.depth c.limit + 1)
  index : c.index ≤ d.index
  beforeEnd : c.BeforeEnd → d.BeforeEnd
  warnings : c.warnings <+: d.warnings
  references : c.references <+: d.references

namespace Framed

variable {c d e : Cursor}

theorem refl (c : Cursor) : Framed c c :=
  ⟨rfl, rfl, rfl, Nat.le_max_left _ _, Nat.le_refl _, id, List.prefix_refl _, List.prefix_refl _⟩

theorem trans (h : Framed c d) (g : Framed d e) : Framed c e where
  tokens := g.tokens.trans h.tokens
  limit := g.limit.trans h.limit
  depth := g.depth.trans h.depth
  deepest := by
    have hdeepest := g.deepest
    rw [h.depth, h.limit] at hdeepest
    exact Nat.le_trans hdeepest (Nat.max_le.mpr ⟨h.deepest, Nat.le_max_right _ _⟩)
  index := Nat.le_trans h.index g.index
  beforeEnd hc := g.beforeEnd (h.beforeEnd hc)
  warnings := h.warnings.trans g.warnings
  references := h.references.trans g.references

/-! ## Single steps -/

theorem advance (c : Cursor) : Framed c c.advance := by
  by_cases hk : c.kind = .eof
  · rw [advance_of_end hk]
    exact refl c
  · have hmove := moved_advance hk
    refine ⟨advance_tokens c, hmove.limit, hmove.depth, ?_, ?_, BeforeEnd.advance, ?_, ?_⟩
    · exact Nat.le_trans hmove.deepest (Nat.max_le.mpr ⟨Nat.le_max_left _ _, by omega⟩)
    · rw [Cursor.index, Cursor.index, hmove.passed]
      exact Nat.le_succ _
    · rw [advance_of_ahead (ahead_eq_cons hk) hk]
      exact c.take_warnings c.current
    · rw [hmove.references]
      exact List.prefix_append _ _

theorem record (refs : List Reference) (events : List Log.Event) (c : Cursor) :
    Framed c (c.record refs events) :=
  { refl c with references := List.prefix_append _ _ }

theorem takeDocs (c : Cursor) : Framed c c.takeDocs.2 := by
  rw [Cursor.takeDocs]
  split
  · exact refl c
  · exact { refl c with }

theorem leave (hlow : c.depth < c.limit) (h : Framed c.enter d) : Framed c d.leave where
  tokens := h.tokens
  limit := h.limit
  depth := congrArg (· - 1) h.depth
  deepest := by
    have hdeepest : d.deepest ≤ max (max c.deepest (c.depth + 1)) (max (c.depth + 1) c.limit + 1) :=
      h.deepest
    have hleave : d.leave.deepest = d.deepest := rfl
    omega
  index := h.index
  beforeEnd := h.beforeEnd
  warnings := h.warnings
  references := h.references

/-- Also a level that is refused is left again. -/
theorem enterLeave (c : Cursor) : Framed c c.enter.leave :=
  { refl c with
    deepest := by
      have hdeepest : c.enter.leave.deepest = max c.deepest (c.depth + 1) := rfl
      omega }

end Framed

/-! ## Readings -/

/-- What lies between the two ends of a reading, whether it gives an answer or not. -/
def Reading.Frames {α : Type} (read : Reading α) : Prop := ∀ c, Framed c (read c).2

namespace Reading.Frames

variable {α β : Type} {read : Reading α} {next : α → Reading β}

theorem of_stays (h : ∀ c, (read c).2 = c) : Frames read := by
  intro c
  rw [h]
  exact .refl c

theorem bind (hread : Frames read) (hnext : ∀ a, Frames (next a)) : Frames (read >>= next) :=
  fun c => Reading.bind_keeps (I := Framed c) (fun d hd => hd.trans (hread d))
    (fun a d hd => hd.trans (hnext a d)) (.refl c)

theorem change {f : Cursor → Cursor} (h : ∀ c, Framed c (f c)) : Frames (Reading.change f) := h

theorem skip (among : Token.Kind → Bool) : Frames (Reading.change (Cursor.skip among)) := by
  intro c
  dsimp only [Reading.change]
  fun_induction Cursor.skip among c with
  | case1 c => exact .refl c
  | case2 c _ _ ih => exact (Framed.advance c).trans ih
  | case3 c => exact .refl c

theorem untilKind {stop : Token.Kind → Bool} {step : α → Reading α} (hstep : ∀ a, Frames (step a))
    (a : α) : Frames (Reading.untilKind stop step a) :=
  fun c => Reading.untilKind_keeps (I := Framed c) (fun a d hd => hd.trans (hstep a d)) a (.refl c)

theorem nested (h : Frames read) : Frames (Reading.nested read) := by
  intro c
  rcases Nat.lt_or_ge c.depth c.limit with hlt | hge
  · rw [Reading.nested_of_lt hlt]
    exact .leave hlt (h c.enter)
  · rw [Reading.nested_of_le hge]
    exact .enterLeave c

theorem colon : Frames Member.colon :=
  (skip _).bind fun _ => (of_stays (Reading.expect_stays _)).bind fun _ =>
    (change Framed.advance).bind fun _ => skip _

theorem insert (owner : MemberOwner) (key : Bytes × Location) (members : KeyedList Node)
    (n : Node) :
    Frames (Member.insert owner key members n) := by
  intro c
  rcases Member.insert_apply owner key members n c with h | ⟨more, h⟩
  · rw [h]
    exact .refl c
  · rw [h]
    exact skip _ c

theorem member {value : Reading Node} (hvalue : Frames value) (owner : MemberOwner)
    (expected : List Token.Kind) (members : KeyedList Node) :
    Frames (Member.read owner expected value members) := by
  rw [Member.read_eq]
  exact (of_stays (Member.key_stays expected)).bind fun _ => (change Framed.advance).bind fun _ =>
    colon.bind fun _ => hvalue.bind fun _ => insert owner _ members _

end Reading.Frames

/-- Whatever is composed of single steps keeps to the frame. -/
theorem Composed.frames {lax : Prop} {α : Type} {read : Reading α} (h : Composed lax read) :
    read.Frames := by
  induction h with
  | pure => exact .of_stays fun _ => rfl
  | look => exact .of_stays fun _ => rfl
  | advance => exact .change Framed.advance
  | skip => exact .skip _
  | record refs events => exact .change (Framed.record refs events)
  | refuse => exact .of_stays fun _ => rfl
  | bind _ _ hread hnext => exact hread.bind hnext
  | nested _ ih => exact ih.nested
  | untilKind a _ ih => exact .untilKind ih a
  | levels _ ih => exact fun c => ih _ c
  | member _ members ih => exact ih.member _ _ members
  | thenGap _ _ ih => exact fun c => (ih c).trans (Reading.Frames.skip _ _)

/-- Leading traits take documentation besides. -/
theorem Trait.frames_leading (r : Resolver) : (readLeading r).Frames := by
  rw [readLeading_eq]
  refine Reading.Frames.bind (fun c => ?_) fun docs => (Composed.behindDocs trivial r docs).frames
  have htrivia := Reading.Frames.skip Token.Kind.isTrivia c
  rw [readDocs_apply]
  split
  · exact (htrivia.trans (Reading.Frames.skip _ _)).trans (.takeDocs _)
  · exact htrivia

/-! ## The laws -/

/-- A run that began at `c` kept to the frame, and did not pass the last token. -/
structure Confined {α : Type} (c : Cursor) (found : Except ParseError α × Cursor) : Prop where
  frame : Framed c found.2
  last : found.2.index < c.tokens.length

/-- An answer stands for at least one token. -/
structure ConfinedAndOnward {α : Type} (c : Cursor) (found : Except ParseError α × Cursor) : Prop
    extends Confined c found where
  onward : ∀ a, found.1 = .ok a → c.index < found.2.index

section Laws

variable {α : Type} {c : Cursor} {read : Reading α}

theorem Cursor.tokens_length (c : Cursor) : c.tokens.length = c.index + c.ahead.length := by
  rw [tokens, index, List.length_append, List.length_reverse]

theorem Cursor.BeforeEnd.index_lt (h : c.BeforeEnd) : c.index < c.tokens.length := by
  have hne : c.ahead ≠ [] := by
    intro hnil
    rw [BeforeEnd, hnil] at h
    cases h
  rw [tokens_length]
  exact Nat.lt_add_of_pos_right (List.length_pos_iff.mpr hne)

theorem passes_value (r : Resolver) (given : Option Location) :
    Reading.Passes (Node.read r given) :=
  fun c => passes_valueWithin r (c.limit - c.depth) given c

theorem Reading.Frames.confined (h : read.Frames) (hc : c.BeforeEnd) : Confined c (read c) where
  frame := h c
  last := by
    rw [← (h c).tokens]
    exact ((h c).beforeEnd hc).index_lt

theorem Reading.Frames.onward (h : read.Frames) (hpass : read.Passes) (hc : c.BeforeEnd) :
    ConfinedAndOnward c (read c) where
  toConfined := h.confined hc
  onward a ha := by
    have hlt := hpass c (read c).2 a (Prod.ext ha rfl)
    have htokens := congrArg List.length (h c).tokens
    rw [Cursor.tokens_length, Cursor.tokens_length] at htokens
    omega

/-- A cursor over any tokens begins before their end. -/
theorem Cursor.ofTokens_beforeEnd (tokens : List Token) (limit : Nat) :
    (ofTokens tokens limit).BeforeEnd := by
  rw [BeforeEnd, ofTokens]
  split
  · assumption
  · rw [List.getLast?_concat]
    rfl

/-- Wherever a reading begins and whether it succeeds or not, it stops at the level where it
began and not behind the last token, having gone at most one level deeper than the limit
and having lost nothing; and a value, an id, a trait or a statement is never read off no
token at all. -/
theorem readings_keep_the_frame_and_get_on (r : Resolver) {c : Cursor} (hc : c.BeforeEnd) :
    (∀ given, ConfinedAndOnward c (Node.read r given c)) ∧ ConfinedAndOnward c (ShapeId.read c) ∧
      ConfinedAndOnward c (Trait.read r c) ∧ Confined c (Trait.readAll r c) ∧
      Confined c (Trait.readLeading r c) ∧ ConfinedAndOnward c (Apply.read r c) ∧
      Confined c (Apply.readAll r c) :=
  have hframes {β : Type} {read : Reading β} (h : Composed True read) := h.frames
  ⟨fun given => (hframes (.value r given)).onward (passes_value r given) hc,
    (hframes .shapeId).onward passes_shapeId hc,
      (hframes (.trait trivial r)).onward (passes_trait r) hc,
    (hframes (.traits trivial r)).confined hc, (Trait.frames_leading r).confined hc,
    (hframes (.statement trivial r)).onward (passes_statement r) hc,
    (hframes (.document trivial r)).confined hc⟩

end Laws

/-- Of two arrays the inner one is a level too deep. Both levels are left again, and the
reading has stopped before the inner array. -/
theorem a_refused_level_is_left_like_the_others :
    let c := ofTokens (Source.mk [] (utf8 "apply S @t([[1]])")).tokens 1
    let found := Apply.read .forward c
    c.BeforeEnd ∧ Confined c found ∧ found.1.isOk = false ∧ found.2.deepest = 2 ∧
      found.2.depth = 0 ∧ found.2.index = 8 := by
  intro c found
  have hc : c.BeforeEnd := ofTokens_beforeEnd _ 1
  obtain ⟨-, -, -, -, -, hstatement, -⟩ := readings_keep_the_frame_and_get_on .forward hc
  refine ⟨hc, hstatement.toConfined, ?_⟩
  decide +kernel

end ShapeTraits
