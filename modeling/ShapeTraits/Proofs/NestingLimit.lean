-- The limit of nesting is exact and otherwise invisible. Two runs with different
-- limits are followed side by side: they do the same until the lower limit is
-- reached, and then the run with the higher limit has gone deeper than that.
import ShapeTraits.Proofs.DocumentReading

namespace ShapeTraits

open Cursor

/-! ## Steps that know no limit -/

/-- The same cursor under another limit. -/
def Cursor.withLimit (k : Nat) (c : Cursor) : Cursor := { c with limit := k }

/-- A change of the cursor that has nothing to do with nesting. -/
structure Cursor.Quiet (f : Cursor → Cursor) : Prop where
  withLimit : ∀ k c, f (c.withLimit k) = (f c).withLimit k
  limit : ∀ c, (f c).limit = c.limit
  depth : ∀ c, (f c).depth = c.depth
  deepest : ∀ c, (f c).deepest = c.deepest

namespace Cursor

theorem dropDocs_withLimit (k : Nat) (c : Cursor) (l : Location) :
    (c.withLimit k).dropDocs l = (c.dropDocs l).withLimit k := by
  unfold dropDocs withLimit
  split
  · rfl
  · rfl

theorem take_withLimit (k : Nat) (c : Cursor) (t : Token) :
    (c.withLimit k).take t = (c.take t).withLimit k := by
  unfold take
  split
  · rfl
  · split
    · rfl
    · exact dropDocs_withLimit k c t.start

@[simp] theorem withLimit_kind (k : Nat) (c : Cursor) : (c.withLimit k).kind = c.kind := rfl

@[simp] theorem withLimit_isAtEnd (k : Nat) (c : Cursor) :
    (c.withLimit k).isAtEnd = c.isAtEnd := rfl

theorem quiet_id : Quiet fun c => c :=
  ⟨fun _ _ => rfl, fun _ => rfl, fun _ => rfl, fun _ => rfl⟩

theorem quiet_note (e : Log.Event) : Quiet (·.note e) :=
  ⟨fun _ _ => rfl, fun _ => rfl, fun _ => rfl, fun _ => rfl⟩

theorem quiet_takeDocs : Quiet fun c => c.takeDocs.2 := by
  constructor
  · intro k c
    by_cases h : c.docs = [] <;> simp [takeDocs, withLimit, h]
  all_goals
    intro c
    unfold takeDocs
    split
    · rfl
    · rfl

theorem quiet_advance : Quiet advance := by
  constructor
  · intro k c
    have ha : (c.withLimit k).ahead = c.ahead := rfl
    rw [advance_eq, advance_eq, ha]
    cases c.ahead with
    | nil => rfl
    | cons t rest =>
      dsimp only
      rw [take_withLimit]
      split
      · rfl
      · rfl
  all_goals
    intro c
    rw [advance_eq]
    split
    · rfl
    · split
      · rfl
      · obtain ⟨-, hlimit, hdepth, hdeepest⟩ := take_frame c ‹Token›
        assumption

theorem quiet_skip (among : Token.Kind → Bool) : Quiet (skip among) := by
  constructor
  · intro k c
    fun_induction skip among c with
    | case1 c hend =>
      rw [skip, withLimit_isAtEnd, if_pos hend]
    | case2 c hend hk ih =>
      rw [skip, withLimit_isAtEnd, if_neg hend, withLimit_kind, if_pos hk, quiet_advance.withLimit]
      exact ih
    | case3 c hend hk =>
      rw [skip, withLimit_isAtEnd, if_neg hend, withLimit_kind, if_neg hk]
  · intro c
    fun_induction skip among c with
    | case1 => rfl
    | case2 c hend hk ih => exact ih.trans (quiet_advance.limit c)
    | case3 => rfl
  · intro c
    fun_induction skip among c with
    | case1 => rfl
    | case2 c hend hk ih => exact ih.trans (quiet_advance.depth c)
    | case3 => rfl
  · intro c
    fun_induction skip among c with
    | case1 => rfl
    | case2 c hend hk ih => exact ih.trans (quiet_advance.deepest c)
    | case3 => rfl

end Cursor

/-! ## Two runs side by side -/

section Runs

variable {α β : Type} {m m' d : Nat}

/-- The answer of a run that nested too deep. -/
def IsTooDeep (answer : Except ParseError α) : Prop :=
  ∃ e, answer = .error e ∧ e.cause.kind = .resourceLimit

/-- How two runs with the limits `m` and `m'` that started alike end at a depth:
alike, or the first too deep and the second deeper than `m` on its way. -/
structure Ends (m m' depth deepest : Nat) (low high : Except ParseError α × Cursor) : Prop where
  limit : high.2.limit = m'
  depth : high.2.depth = depth
  deepest : deepest ≤ high.2.deepest
  alike : (low.2.limit = m ∧ high = (low.1, low.2.withLimit m')) ∨
    (IsTooDeep low.1 ∧ m < high.2.deepest)

/-- Two readings that end so wherever they start at a depth. -/
def Agrees (m m' d : Nat) (low high : Reading α) : Prop :=
  ∀ c, c.limit = m → c.depth = d → Ends m m' d c.deepest (low c) (high (c.withLimit m'))

namespace Agrees

theorem of_step {step : Reading α} (answer : Cursor → Except ParseError α) {f : Cursor → Cursor}
    (hstep : ∀ c, step c = (answer c, f c)) (hanswer : ∀ k c, answer (c.withLimit k) = answer c)
    (hf : Quiet f) : Agrees m m' d step step := by
  intro c hlimit hdepth
  rw [hstep, hstep, hanswer, hf.withLimit]
  exact ⟨rfl, (hf.depth c).trans hdepth, Nat.le_of_eq (hf.deepest c).symm,
    .inl ⟨(hf.limit c).trans hlimit, rfl⟩⟩

theorem pure (a : α) : Agrees m m' d (pure a) (pure a) :=
  of_step (fun _ => .ok a) (fun _ => rfl) (fun _ _ => rfl) quiet_id

theorem change {f : Cursor → Cursor} (hf : Quiet f) :
    Agrees m m' d (Reading.change f) (Reading.change f) :=
  of_step (fun _ => .ok ()) (fun _ => rfl) (fun _ _ => rfl) hf

theorem current : Agrees m m' d Reading.current Reading.current :=
  of_step (fun c => .ok c.current) (fun _ => rfl) (fun _ _ => rfl) quiet_id

theorem kind : Agrees m m' d Reading.kind Reading.kind :=
  of_step (fun c => .ok c.kind) (fun _ => rfl) (fun _ _ => rfl) quiet_id

theorem location : Agrees m m' d Reading.location Reading.location :=
  of_step (fun c => .ok c.location) (fun _ => rfl) (fun _ _ => rfl) quiet_id

theorem refuse (e : ParseError) : Agrees m m' d (Reading.refuse e : Reading α) (Reading.refuse e) :=
  of_step (fun _ => .error e) (fun _ => rfl) (fun _ _ => rfl) quiet_id

theorem unexpected (kinds : List Token.Kind) :
    Agrees m m' d (Reading.unexpected kinds : Reading α) (Reading.unexpected kinds) :=
  of_step (fun c => .error (c.unexpected kinds)) (fun _ => rfl) (fun _ _ => rfl) quiet_id

theorem expect (kinds : List Token.Kind) :
    Agrees m m' d (Reading.expect kinds) (Reading.expect kinds) := by
  refine of_step (fun c => if c.kind ∈ kinds then .ok () else .error (c.unexpected kinds))
    (fun c => ?_) (fun _ _ => rfl) quiet_id
  rw [Reading.expect]
  split
  · rfl
  · rfl

theorem advance : Agrees m m' d Reading.advance Reading.advance := change quiet_advance

theorem skipGap : Agrees m m' d Reading.skipGap Reading.skipGap := change (quiet_skip _)

theorem skipTrivia : Agrees m m' d Reading.skipTrivia Reading.skipTrivia := change (quiet_skip _)

theorem note (e : Log.Event) : Agrees m m' d (Reading.note e) (Reading.note e) :=
  change (quiet_note e)

theorem takeDocs : Agrees m m' d Reading.takeDocs Reading.takeDocs := by
  refine of_step (fun c => .ok c.takeDocs.1) (fun _ => rfl) (fun k c => ?_) quiet_takeDocs
  by_cases h : c.docs = [] <;> simp [Cursor.takeDocs, withLimit, h]

theorem resolve (name : Bytes) (l : Location) :
    Agrees m m' d (Resolver.forward.resolve name l) (Resolver.forward.resolve name l) := by
  cases h : Resolver.keyword? name l with
  | some value =>
    refine of_step (fun _ => .ok value) (fun c => ?_) (fun _ _ => rfl) quiet_id
    rw [Resolver.resolve, h]
  | none =>
    refine of_step (fun _ => .ok (.string l name))
      (f := fun c => Resolver.keep (c.note (.deferred name l)) name l) (fun c => ?_)
        (fun _ _ => rfl)
      ⟨fun _ _ => rfl, fun _ => rfl, fun _ => rfl, fun _ => rfl⟩
    rw [Resolver.resolve, h]

/-! ## Steps made of steps -/

/-- Once the lower run is too deep, the higher one only gets deeper. -/
theorem bind {low high : Reading α} {lowNext highNext : α → Reading β}
    (hfirst : Agrees m m' d low high) (hnext : ∀ a, Agrees m m' d (lowNext a) (highNext a)) :
    Agrees m m' d (low >>= lowNext) (high >>= highNext) := by
  intro c hlimit hdepth
  obtain ⟨hl, hd, hdeep, halike⟩ := hfirst c hlimit hdepth
  rw [Reading.bind_apply, Reading.bind_apply]
  rcases hlow : low c with ⟨answer, e⟩
  rcases hhigh : high (c.withLimit m') with ⟨answer', f⟩
  rw [hlow, hhigh] at halike
  rw [hhigh] at hl hd hdeep
  rcases halike with ⟨he, heq⟩ | ⟨⟨error, herror, hkind⟩, hdeeper⟩
  · cases heq
    cases answer with
    | error error => exact ⟨hl, hd, hdeep, .inl ⟨he, rfl⟩⟩
    | ok a =>
      obtain ⟨hl', hd', hdeep', halike'⟩ := hnext a e he hd
      exact ⟨hl', hd', Nat.le_trans hdeep hdeep', halike'⟩
  · subst herror
    cases answer' with
    | error error' => exact ⟨hl, hd, hdeep, .inr ⟨⟨error, rfl, hkind⟩, hdeeper⟩⟩
    | ok a =>
      have hf : (f.withLimit m).withLimit m' = f := by rw [← hl]; rfl
      obtain ⟨hl', hd', hdeep', -⟩ := hnext a (f.withLimit m) rfl hd
      rw [hf] at hl' hd' hdeep'
      exact ⟨hl', hd', Nat.le_trans hdeep hdeep',
        .inr ⟨⟨error, rfl, hkind⟩, Nat.lt_of_lt_of_le hdeeper hdeep'⟩⟩

theorem andAlways {low high : Reading α} {f : Cursor → Cursor} (h : Agrees m m' d low high)
    (hf : Quiet f) : Agrees m m' d (low.andAlways f) (high.andAlways f) := by
  intro c hlimit hdepth
  obtain ⟨hl, hd, hdeep, halike⟩ := h c hlimit hdepth
  rw [Reading.andAlways_apply, Reading.andAlways_apply]
  refine ⟨(hf.limit _).trans hl, (hf.depth _).trans hd, ?_, ?_⟩
  · rw [hf.deepest]
    exact hdeep
  · rw [hf.deepest]
    refine halike.imp (fun ⟨he, heq⟩ => ⟨(hf.limit _).trans he, ?_⟩) id
    rw [heq]
    dsimp only
    rw [hf.withLimit]

/-- One level deeper the lower run may be too deep already. -/
theorem nested {low low' high : Reading α} (hm : m ≤ m')
    (hinner : d < m' → Agrees m m' (d + 1) low' high) (hlow : d < m → low = low') :
    Agrees m m' d (Reading.nested low) (Reading.nested high) := by
  intro c hlimit hdepth
  have hhighlimit : (c.withLimit m').limit = m' := rfl
  have hhighdepth : (c.withLimit m').depth = d := hdepth
  have hhighenter : (c.withLimit m').enter = c.enter.withLimit m' := rfl
  have henter : c.enter.deepest = max c.deepest (d + 1) := by rw [← hdepth]; rfl
  rcases Nat.lt_or_ge d m' with hd | hd
  · obtain ⟨hl, hd', hdeep, halike⟩ := hinner hd c.enter hlimit (congrArg (· + 1) hdepth)
    rw [Reading.nested_of_lt (c := c.withLimit m') (by rw [hhighlimit, hhighdepth]; exact hd),
      hhighenter]
    rw [henter] at hdeep
    refine ⟨hl, congrArg (· - 1) hd', Nat.le_trans (Nat.le_max_left _ _) hdeep, ?_⟩
    rcases Nat.lt_or_ge d m with hdm | hdm
    · rw [Reading.nested_of_lt (by rw [hlimit, hdepth]; exact hdm), hlow hdm]
      refine halike.imp (fun ⟨he, heq⟩ => ⟨he, ?_⟩) id
      rw [heq]
      rfl
    · rw [Reading.nested_of_le (by rw [hlimit, hdepth]; exact hdm)]
      exact .inr ⟨⟨_, rfl, rfl⟩, Nat.lt_of_lt_of_le (Nat.lt_succ_of_le hdm)
        (Nat.le_trans (Nat.le_max_right _ _) hdeep)⟩
  · rw [Reading.nested_of_le (by rw [hlimit, hdepth]; omega),
      Reading.nested_of_le (c := c.withLimit m') (by rw [hhighlimit, hhighdepth]; exact hd),
        hhighenter]
    have hdeep : (c.enter.withLimit m').leave.deepest = max c.deepest (d + 1) := henter
    refine ⟨rfl, hdepth, by rw [hdeep]; exact Nat.le_max_left _ _, .inr ⟨⟨_, rfl, rfl⟩, ?_⟩⟩
    rw [hdeep]
    omega

theorem untilKind {stop : Token.Kind → Bool} {low high : α → Reading α}
    (hstep : ∀ a, Agrees m m' d (low a) (high a)) (a : α) :
    Agrees m m' d (Reading.untilKind stop low a) (Reading.untilKind stop high a) := by
  intro c hlimit hdepth
  induction hn : c.ahead.length using Nat.strongRecOn generalizing a c with
  | ind n ih =>
    subst hn
    by_cases hstop : stop c.kind = true
    · rw [Reading.untilKind_stop hstop,
        Reading.untilKind_stop (by rw [withLimit_kind]; exact hstop)]
      exact ⟨rfl, hdepth, Nat.le_refl _, .inl ⟨hlimit, rfl⟩⟩
    · rw [Bool.not_eq_true] at hstop
      rw [Reading.untilKind_apply a hstop,
        Reading.untilKind_apply a (c := c.withLimit m') (by rw [withLimit_kind]; exact hstop)]
      refine bind (hstep a) (fun b e he hd => ?_) c hlimit hdepth
      have hahead : (e.withLimit m').ahead = e.ahead := rfl
      have hahead' : (c.withLimit m').ahead = c.ahead := rfl
      rw [hahead, hahead']
      by_cases hlt : e.ahead.length < c.ahead.length
      · rw [if_pos hlt, if_pos hlt]
        exact ih _ hlt b e he hd rfl
      · rw [if_neg hlt, if_neg hlt]
        exact pure b e he hd

theorem ite {p : Prop} [Decidable p] {low low' high high' : Reading α}
    (hyes : Agrees m m' d low high) (hno : Agrees m m' d low' high') :
    Agrees m m' d (if p then low else low') (if p then high else high') := by
  by_cases h : p
  · rw [if_pos h, if_pos h]
    exact hyes
  · rw [if_neg h, if_neg h]
    exact hno

/-! ## Values -/

theorem name (id : Bytes) : Agrees m m' d (ShapeId.name id) (ShapeId.name id) :=
  (expect _).bind fun _ => current.bind fun _ => advance.bind fun _ => pure _

theorem part (sign : Token.Kind) (mark id : Bytes) :
    Agrees m m' d (ShapeId.part sign mark id) (ShapeId.part sign mark id) :=
  kind.bind fun _ => ite (advance.bind fun _ => name _) (pure _)

theorem shapeId : Agrees m m' d ShapeId.read ShapeId.read :=
  (name _).bind fun _ => (untilKind (part _ _) _).bind fun _ =>
    (part _ _ _).bind fun _ => part _ _ _

theorem key (expected : List Token.Kind) :
    Agrees m m' d (Member.key expected) (Member.key expected) := by
  refine current.bind fun t => ?_
  cases t.content with
  | string => exact pure _
  | identifier => exact pure _
  | _ => exact unexpected expected

theorem colon : Agrees m m' d Member.colon Member.colon :=
  skipGap.bind fun _ => (expect _).bind fun _ => advance.bind fun _ => skipGap

theorem member {owner : MemberOwner} {expected : List Token.Kind} {low high : Reading Node}
    (hvalue : Agrees m m' d low high) (members : KeyedList Node) :
    Agrees m m' d (Member.read owner expected low members)
      (Member.read owner expected high members) := by
  refine (key expected).bind fun ⟨name, l⟩ => advance.bind fun _ => colon.bind fun _ =>
    hvalue.bind fun n => ?_
  cases members.insert? name l n with
  | none => exact refuse _
  | some members => exact skipGap.bind fun _ => pure _

theorem object {low high : Reading Node} (hvalue : Agrees m m' d low high) :
    Agrees m m' d (Node.readObject low) (Node.readObject high) :=
  location.bind fun _ => advance.bind fun _ => skipGap.bind fun _ =>
    (untilKind (member hvalue) _).bind fun _ => advance.bind fun _ => pure _

theorem gather {low high : Reading α} (h : Agrees m m' d low high) (as : List α) :
    Agrees m m' d (Reading.gather low as) (Reading.gather high as) :=
  h.bind fun _ => skipGap.bind fun _ => pure _

theorem array {low high : Reading Node} (hvalue : Agrees m m' d low high) :
    Agrees m m' d (Node.readArray low) (Node.readArray high) :=
  location.bind fun _ => advance.bind fun _ => skipGap.bind fun _ =>
    (untilKind hvalue.gather _).bind fun _ => advance.bind fun _ => pure _

/-- What reads the values inside, with so many levels left. -/
def inside : Nat → Reading Node
  | 0 => Reading.unexpected []
  | k + 1 => Node.readWithin .forward k none

theorem readWithin_eq (k : Nat) (given : Option Location) :
    Node.readWithin .forward k given = Node.readWith .forward (inside k) given := by
  cases k with
  | zero => rfl
  | succ k => rfl

theorem valueWith {low high : Reading Node} (given : Option Location)
    (hobject : Agrees m m' d (Reading.nested (Node.readObject low))
      (Reading.nested (Node.readObject high)))
    (harray : Agrees m m' d (Reading.nested (Node.readArray low))
      (Reading.nested (Node.readArray high))) :
    Agrees m m' d (Node.readWith .forward low given) (Node.readWith .forward high given) := by
  refine current.bind fun t => ?_
  dsimp only
  cases t.content with
  | string => exact advance.bind fun _ => pure _
  | textBlock => exact advance.bind fun _ => pure _
  | number => exact advance.bind fun _ => pure _
  | identifier => exact shapeId.bind fun id => resolve id _
  | leftBrace => exact hobject
  | leftBracket => exact harray
  | _ => exact unexpected _

/-- Both runs have the levels left that their limits leave them. -/
theorem valueWithin (hm : m ≤ m') (given : Option Location) :
    Agrees m m' d (Node.readWithin .forward (m - d) given)
      (Node.readWithin .forward (m' - d) given) := by
  induction hk : m' - d generalizing d given with
  | zero =>
    rw [readWithin_eq, readWithin_eq]
    have hd : ¬ d < m' := by omega
    have hnested (low high : Reading Node) :
        Agrees m m' d (Reading.nested low) (Reading.nested high) :=
      nested hm (fun h => absurd h hd) fun _ => (rfl : low = low)
    exact valueWith given (hnested _ _) (hnested _ _)
  | succ k ih =>
    have hinner :
        Agrees m m' (d + 1) (Node.readWithin .forward (m - (d + 1)) none) (inside (k + 1)) :=
      ih none (by omega)
    have hlow (h : d < m) : inside (m - d) = Node.readWithin .forward (m - (d + 1)) none := by
      rw [show m - d = m - (d + 1) + 1 by omega]
      rfl
    rw [readWithin_eq, readWithin_eq]
    exact valueWith given (nested hm (fun _ => object hinner) fun h => by rw [hlow h])
      (nested hm (fun _ => array hinner) fun h => by rw [hlow h])

theorem value (hm : m ≤ m') (given : Option Location) :
    Agrees m m' d (Node.read .forward given) (Node.read .forward given) := by
  intro c hlimit hdepth
  have hlow : Node.read .forward given c = Node.readWithin .forward (m - d) given c := by
    rw [Node.read, hlimit, hdepth]
  have hhigh : Node.read .forward given (c.withLimit m') =
      Node.readWithin .forward (m' - d) given (c.withLimit m') := by
    rw [← hdepth]
    rfl
  rw [hlow, hhigh]
  exact valueWithin hm given c hlimit hdepth

/-! ## Traits and statements -/

theorem members (hm : m ≤ m') (name : Bytes) (l : Location) :
    Agrees m m' d (Trait.readMembers .forward name l) (Trait.readMembers .forward name l) :=
  nested hm (fun _ => (value hm none).bind fun _ => skipGap.bind fun _ =>
    (untilKind (member (value hm none)) _).bind fun _ => pure _) fun _ => rfl

theorem keyed (hm : m ≤ m') (name : Bytes) (l : Location) {alone : Reading Node}
    (halone : Agrees m m' d alone alone) :
    Agrees m m' d (Trait.readKeyed .forward name l alone) (Trait.readKeyed .forward name l alone) :=
  advance.bind fun _ => skipGap.bind fun _ => kind.bind fun _ =>
    ite (advance.bind fun _ => skipGap.bind fun _ => members hm name l) halone

theorem body (hm : m ≤ m') (l : Location) :
    Agrees m m' d (Trait.readBody .forward l) (Trait.readBody .forward l) := by
  refine current.bind fun t => ?_
  cases t.content with
  | leftBrace => exact (value hm _).andAlways (quiet_skip _)
  | leftBracket => exact (value hm _).andAlways (quiet_skip _)
  | textBlock => exact advance.bind fun _ => skipGap.bind fun _ => pure _
  | number => exact advance.bind fun _ => skipGap.bind fun _ => pure _
  | string text => exact keyed hm _ _ (pure _)
  | identifier => exact keyed hm _ _ (resolve _ _)
  | _ => exact unexpected _

theorem trait (hm : m ≤ m') : Agrees m m' d (Trait.read .forward) (Trait.read .forward) :=
  location.bind fun _ => (expect _).bind fun _ => advance.bind fun _ => shapeId.bind fun _ =>
    kind.bind fun _ => ite
      (advance.bind fun _ => skipGap.bind fun _ => kind.bind fun _ => ite
        (advance.bind fun _ => pure _)
        ((body hm _).bind fun _ => skipGap.bind fun _ => (expect _).bind fun _ =>
          advance.bind fun _ => (note _).bind fun _ => pure _))
      ((note _).bind fun _ => pure _)

theorem traits (hm : m ≤ m') : Agrees m m' d (Trait.readAll .forward) (Trait.readAll .forward) :=
  untilKind (trait hm).gather []

theorem docs : Agrees m m' d Trait.readDocs Trait.readDocs :=
  skipTrivia.bind fun _ => current.bind fun _ =>
    ite (skipGap.bind fun _ => takeDocs.bind fun _ => pure _) (pure _)

theorem leading (hm : m ≤ m') :
    Agrees m m' d (Trait.readLeading .forward) (Trait.readLeading .forward) :=
  docs.bind fun _ => (traits hm).bind fun _ => skipGap.bind fun _ => pure _

theorem keyword : Agrees m m' d Apply.readKeyword Apply.readKeyword := by
  refine current.bind fun t => ?_
  cases t.content with
  | identifier => exact ite advance (refuse _)
  | error => exact refuse _
  | _ => exact refuse _

theorem statementTraits (hm : m ≤ m') :
    Agrees m m' d (Apply.readTraits .forward) (Apply.readTraits .forward) := by
  refine kind.bind fun k => ?_
  cases k with
  | «at» => exact (trait hm).bind fun _ => pure _
  | leftBrace =>
    exact advance.bind fun _ => skipGap.bind fun _ => (traits hm).bind fun _ =>
      (expect _).bind fun _ => advance.bind fun _ => pure _
  | _ => exact unexpected _

theorem statement (hm : m ≤ m') : Agrees m m' d (Apply.read .forward) (Apply.read .forward) :=
  location.bind fun _ => keyword.bind fun _ => (expect _).bind fun _ => skipTrivia.bind fun _ =>
    shapeId.bind fun _ => skipTrivia.bind fun _ => (statementTraits hm).bind fun _ =>
      (note _).bind fun _ => pure _

theorem document (hm : m ≤ m') : Agrees m m' d (Apply.readAll .forward) (Apply.readAll .forward) :=
  skipGap.bind fun _ => untilKind (statement hm).gather []

end Agrees

end Runs

/-! ## How deep an answer is -/

/-- A reading whose answers are exactly as deep as the nesting went, and no
deeper than it may go. -/
def Measures {α : Type} (read : Reading α) (depth : α → Nat) : Prop :=
  ∀ c d a, read c = (.ok a, d) →
    depth a ≤ c.limit - c.depth ∧ ∃ w refs, Moved c d w refs (depth a)

open Apply (depthOf)

theorem depthOf_le {levels : Nat} {ts : List Trait} (h : ∀ t ∈ ts, t.value.Fits levels) :
    depthOf ts ≤ levels :=
  largest_le.mpr fun t ht => (h t ht).depth_le

theorem measures_value (given : Option Location) :
    Measures (Node.read .forward given) Node.depth := by
  intro c d n hread
  have hflat {n : Node} (hn : n.depth = 0) {d : Cursor} {w : List Token} {refs : List Reference}
      (hmove : Moved c d w refs 0) :
      n.depth ≤ c.limit - c.depth ∧ ∃ w refs, Moved c d w refs n.depth := by
    rw [hn]
    exact ⟨Nat.zero_le _, w, refs, hmove⟩
  have hcontainer (h : c.current.content = .leftBrace ∨ c.current.content = .leftBracket) :
      n.depth ≤ c.limit - c.depth ∧ ∃ w refs, Moved c d w refs n.depth := by
    have hnone : Node.read .forward none c = (.ok n, d) := by
      cases given with
      | none => exact hread
      | some l => rw [← Node.read_given_of_container h .forward l, hread]
    obtain ⟨w, refs, ⟨-, hfits⟩, hmove⟩ := (Node.reads_value _).sound rfl hnone
    exact ⟨hfits.depth_le, w, refs, hmove⟩
  have hwith := hread
  rw [Node.read, Agrees.readWithin_eq] at hwith
  rcases Node.readWith_eq_ok hwith with ⟨text, h⟩ | ⟨value, h⟩ | h | h | h
  · rw [Node.readWith_of_text h] at hwith
    cases hwith
    exact hflat rfl (moved_advance (h.elim (Token.ne_eof_of_content ·) (Token.ne_eof_of_content ·)))
  · rw [Node.readWith_of_number h] at hwith
    cases hwith
    exact hflat rfl (moved_advance (Token.ne_eof_of_content h))
  · rw [Node.readWith_of_identifier h] at hwith
    obtain ⟨id, e, hid, hresolve⟩ := Reading.bind_eq_ok.mp hwith
    obtain ⟨w, refs, -, hmove⟩ := (ShapeId.reads_id _).sound rfl hid
    obtain ⟨f, heq, -, hmove'⟩ := Node.resolve_forward id (given.getD c.current.start) e
    cases heq.symm.trans hresolve
    exact hflat (Node.meaning_flat id _).2 (hmove.trans hmove')
  · exact hcontainer (.inl h)
  · exact hcontainer (.inr h)

theorem measures_trait : Measures (Trait.read .forward) (fun t => t.value.depth) := by
  intro c d t hread
  obtain ⟨w, refs, ⟨-, hfits⟩, hmove⟩ := (Trait.reads_trait _).sound rfl hread
  exact ⟨hfits.depth_le, w, refs, hmove⟩

theorem measures_traits : Measures (Trait.readAll .forward) depthOf := by
  intro c d ts hread
  obtain ⟨-, as, w, refs, hm, hview, -, hmove⟩ :=
    (Trait.reads_next _).sound_loop Trait.begins_within rfl hread
  cases hview
  exact ⟨depthOf_le (Trait.many_within.mp hm).2, w, refs, hmove⟩

/-- Documentation does not nest. -/
theorem readDocs_sound {c d : Cursor} {docs : Option Trait}
    (hread : Trait.readDocs c = (.ok docs, d)) :
    depthOf docs.toList = 0 ∧ ∃ w, Moved c d w [] 0 := by
  rw [Trait.readDocs, Reading.skipTrivia_bind, Reading.current_bind] at hread
  have hmove := moved_skipTrivia c
  by_cases hk : c.skipTrivia.current.kind = .docComment
  · rw [if_pos hk, Reading.skipGap_bind, Reading.takeDocs_bind, Reading.pure_apply] at hread
    cases hread
    refine ⟨?_, _, (hmove.thenQuiet (moved_skipGap _)).thenQuiet (moved_takeDocs _)⟩
    cases c.skipTrivia.skipGap.takeDocs.1 with
    | none => rfl
    | some text => exact (Nat.max_zero _).trans (Node.depth_string _ _)
  · rw [if_neg hk] at hread
    cases hread
    exact ⟨rfl, _, hmove⟩

theorem measures_leading : Measures (Trait.readLeading .forward) depthOf := by
  intro c d ts hread
  obtain ⟨docs, e, hdocs, hread⟩ := Reading.bind_eq_ok.mp hread
  obtain ⟨as, f, has, hread⟩ := Reading.bind_eq_ok.mp hread
  rw [Reading.skipGap_bind, Reading.pure_apply] at hread
  cases hread
  obtain ⟨hflat, w, hmove⟩ := readDocs_sound hdocs
  obtain ⟨hle, x, refs, hmove'⟩ := measures_traits e f as has
  have hdepth : depthOf (as ++ docs.toList) = depthOf as := by
    rw [depthOf, largest_append]
    exact (congrArg (max _) hflat).trans (Nat.max_zero _)
  rw [hdepth]
  exact ⟨hmove.levels ▸ hle, _, refs, (hmove'.afterQuiet hmove).thenQuiet (moved_skipGap f)⟩

theorem measures_statement : Measures (Apply.read .forward) (fun s => depthOf s.traits) := by
  intro c d s hread
  obtain ⟨w, refs, ⟨-, hfits⟩, hmove⟩ := (Apply.reads_statement _).sound rfl hread
  exact ⟨depthOf_le hfits, w, refs, hmove⟩

theorem measures_document :
    Measures (Apply.readAll .forward) (largest fun s => depthOf s.traits) := by
  intro c d ss hread
  obtain ⟨-, g, w, refs, -, -, hfits, hmove⟩ := Apply.readAll_sound rfl hread
  exact ⟨largest_le.mpr fun s hs => depthOf_le (hfits s hs), g ++ w, refs, hmove⟩

/-! ## The laws -/

/-- Two runs over the same tokens agree in everything, or the one with the lower
limit is too deep; and it is not if that limit is at least the depth of what the
other reads. -/
def LimitIsExact {α : Type} (read : Reading α) (depth : α → Nat) (tokens : List Token)
    (m m' : Nat) : Prop :=
  let low := read (ofTokens tokens m)
  let high := read (ofTokens tokens m')
  (high = (low.1, low.2.withLimit m') ∨ IsTooDeep low.1) ∧
    ∀ a, high.1 = .ok a → ((∃ b, low.1 = .ok b) ↔ depth a ≤ m)

theorem limitIsExact_of_agrees {α : Type} {read : Reading α} {depth : α → Nat} {m m' : Nat}
    (hagrees : Agrees m m' 0 read read) (hmeasures : Measures read depth) (tokens : List Token) :
    LimitIsExact read depth tokens m m' := by
  obtain ⟨-, -, -, halike⟩ := hagrees (ofTokens tokens m) rfl rfl
  have hstart : (ofTokens tokens m).withLimit m' = ofTokens tokens m' := rfl
  rw [hstart] at halike
  refine ⟨halike.imp (·.2) (·.1), fun a ha => ?_⟩
  rcases halike with ⟨-, heq⟩ | ⟨⟨e, he, -⟩, hdeeper⟩
  · have hlow : (read (ofTokens tokens m)).1 = .ok a := by
      rw [heq] at ha
      exact ha
    exact ⟨fun _ => (hmeasures _ _ a (Prod.ext hlow rfl)).1, fun _ => ⟨a, hlow⟩⟩
  · obtain ⟨-, w, refs, hmove⟩ := hmeasures _ _ a (Prod.ext ha rfl)
    have hdeepest := hmove.deepest
    have hzero : (ofTokens tokens m').deepest = 0 := rfl
    have hzero' : (ofTokens tokens m').depth = 0 := rfl
    rw [hzero, hzero', Nat.zero_add, Nat.zero_max] at hdeepest
    constructor
    · rintro ⟨b, hb⟩
      cases hb.symm.trans he
    · intro hdepth
      exact absurd (Nat.lt_of_lt_of_le hdeeper (Nat.le_trans hdeepest hdepth)) (Nat.lt_irrefl m)

/-- For every way to read from fresh tokens. -/
theorem the_limit_of_nesting_is_exact_and_otherwise_invisible {m m' : Nat} (hm : m ≤ m')
    (tokens : List Token) :
    (∀ given, LimitIsExact (Node.read .forward given) Node.depth tokens m m') ∧
      LimitIsExact (Trait.read .forward) (fun t => t.value.depth) tokens m m' ∧
      LimitIsExact (Trait.readAll .forward) depthOf tokens m m' ∧
      LimitIsExact (Trait.readLeading .forward) depthOf tokens m m' ∧
      LimitIsExact (Apply.read .forward) (fun s => depthOf s.traits) tokens m m' ∧
      LimitIsExact (Apply.readAll .forward) (largest fun s => depthOf s.traits) tokens m m' :=
  ⟨fun given => limitIsExact_of_agrees (.value hm given) (measures_value given) tokens,
    limitIsExact_of_agrees (.trait hm) measures_trait tokens,
    limitIsExact_of_agrees (.traits hm) measures_traits tokens,
    limitIsExact_of_agrees (.leading hm) measures_leading tokens,
    limitIsExact_of_agrees (.statement hm) measures_statement tokens,
    limitIsExact_of_agrees (.document hm) measures_document tokens⟩

/-- An empty array is one level deep. -/
theorem the_limit_is_exact_at_an_empty_array :
    let l : Token := ⟨.leftBracket, utf8 "[", .nowhere, .nowhere⟩
    let r : Token := ⟨.rightBracket, utf8 "]", .nowhere, .nowhere⟩
    0 ≤ 1 ∧ LimitIsExact (Node.read .forward none) Node.depth [l, r, .missingEof] 0 1 :=
  ⟨by decide, (the_limit_of_nesting_is_exact_and_otherwise_invisible (by decide) _).1 none⟩

end ShapeTraits
