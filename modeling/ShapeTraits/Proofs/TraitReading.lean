-- The reader of traits reads exactly the grammar of traits. Bodies come first:
-- members without braces are one level of nesting, like an object's.
import ShapeTraits.Proofs.ValueReading
import ShapeTraits.Trait

namespace ShapeTraits

open Cursor Grammar

/-! ## A location that is given -/

theorem Node.read_given_of_container {c : Cursor}
    (h : c.current.content = .leftBrace ∨ c.current.content = .leftBracket) (r : Resolver)
    (l : Location) : Node.read r (some l) c = Node.read r none c := by
  unfold Node.read
  cases c.limit - c.depth with
  | zero =>
    rcases h with h | h
    · exact (readWith_of_leftBrace h).trans (readWith_of_leftBrace h).symm
    · exact (readWith_of_leftBracket h).trans (readWith_of_leftBracket h).symm
  | succ k =>
    rcases h with h | h
    · exact (readWith_of_leftBrace h).trans (readWith_of_leftBrace h).symm
    · exact (readWith_of_leftBracket h).trans (readWith_of_leftBracket h).symm

/-- A gap behind many things is part of the gap behind the last of them. -/
theorem Grammar.Many.appendGap {α : Type} {P : Form α} {w g : List Token} {as : List α}
    {refs : List Reference} (h : Many P w as refs) (hg : Gap g) (hne : as ≠ []) :
    Many P (w ++ g) as refs := by
  induction h with
  | nil => exact absurd rfl hne
  | @cons v gap w a as refs later first hgap rest ih =>
    cases rest with
    | nil =>
      have := Many.cons first (hgap.append hg) (.nil (P := P))
      simpa using this
    | cons second hgap' more =>
      have := Many.cons first hgap (ih (List.cons_ne_nil _ _))
      simpa using this

namespace Trait

variable {c d : Cursor} {levels : Nat} {l place : Location} {name text : Bytes} {n : Node}
  {t r colon : Token} {g h v w b rest : List Token} {refs later : List Reference}

/-! ## Members without braces -/

/-- Behind the first colon stand the first value and more members. -/
theorem members_sound (hc : c.limit - c.depth = levels)
    (hread : readMembers .forward name l c = (.ok n, d)) :
    ∃ k v x refs g w entries later, levels = k + 1 ∧ ValueWithin k v x refs ∧ Gap g ∧
      Many (Grammar.Member (ValueWithin k)) w entries later ∧
      n = .object l ⟨⟨name, l, x⟩ :: entries⟩ ∧ (name :: entries.map (·.key)).Nodup ∧
      Moved c d (v ++ g ++ w) (refs ++ later)
        (max x.depth (largest (fun e => e.value.depth) entries) + 1) := by
  obtain ⟨hlt, e, hinside, rfl⟩ := Reading.nested_eq_ok.mp hread
  obtain ⟨k, rfl⟩ : ∃ k, levels = k + 1 := ⟨levels - 1, by omega⟩
  obtain ⟨x, f, hx, hinside⟩ := Reading.bind_eq_ok.mp hinside
  obtain ⟨v, refs, hv, hmove⟩ := (Node.reads_value k).sound (Node.levels_enter hc) hx
  rw [Reading.skipGap_bind] at hinside
  obtain ⟨⟨all⟩, f', hloop, hinside⟩ := Reading.bind_eq_ok.mp hinside
  cases hinside
  have hmove' := hmove.thenQuiet (moved_skipGap f)
  obtain ⟨-, entries, w, later, hm, hview, hfit, hmove''⟩ :=
    (Member.reads_member _ _ (Node.reads_value k) Node.begins_within).sound_loop
      (fun _ _ _ => Grammar.Member.begins) (hmove'.levels.trans (Node.levels_enter hc)) hloop
  cases hview
  have hdistinct : (name :: entries.map (·.key)).Nodup := hfit (List.pairwise_singleton _ _)
  exact ⟨k, v, x, refs, _, w, entries, later, rfl, hv, gap_ahead f, hm, rfl, hdistinct,
    (hmove'.trans hmove'').leave⟩

theorem members_complete {k : Nat} {x : Node} {entries : List (Entry Node)}
    (hc : c.limit - c.depth = k + 1) (hv : ValueWithin k v x refs) (hg : Gap g)
    (hm : Many (Grammar.Member (ValueWithin k)) w entries later)
    (hdistinct : (name :: entries.map (·.key)).Nodup) (hr : r.kind = .rightParen)
    (ha : c.ahead = v ++ (g ++ (w ++ r :: rest))) :
    ∃ d, readMembers .forward name l c = (.ok (.object l ⟨⟨name, l, x⟩ :: entries⟩), d) ∧
      d.ahead = r :: rest ∧ Moved c d (v ++ g ++ w) (refs ++ later)
        (max x.depth (largest (fun e => e.value.depth) entries) + 1) := by
  have hnext (bad : Token.Kind → Bool)
      (hbad : ∀ j ∈ [Token.Kind.identifier, .string], bad j = false)
      (hend : bad .rightParen = false) : NotNext bad (w ++ r :: rest) :=
    notNext_many hm (fun _ _ _ => Grammar.Member.begins) hbad (notNext_cons (hr ▸ hend))
  obtain ⟨d, hx, hd, hmove⟩ := (Node.reads_value k).complete (c := c.enter) (Node.levels_enter hc)
    hv ha (notNext_gap hg (by decide) (hnext _ (by decide) rfl))
  obtain ⟨hskip, hd'⟩ := moved_skipGap_of hg hd (hnext _ (by decide) rfl)
  have hmove' := hmove.thenQuiet hskip
  obtain ⟨⟨all⟩, e, hloop, hview, he, hmove''⟩ :=
    (Member.reads_member .trait [.identifier, .string] (Node.reads_value k)
        Node.begins_within).complete_loop (· == .rightParen)
      (s := KeyedList.empty.insertNew name l x)
      (fun _ _ _ => Grammar.Member.begins) (by decide)
      (fun as bs h => by rw [List.map_append] at h; exact (List.nodup_append.mp h).1)
      (by rw [hr]; rfl) (by rw [hr]; rfl) (by rw [hr]; rfl)
      (hmove'.levels.trans (Node.levels_enter hc)) hm hdistinct hd'
  cases hview
  refine ⟨e.leave, Reading.nested_eq_ok.mpr ⟨by omega, e, ?_, rfl⟩, he,
    (hmove'.trans hmove'').leave⟩
  rw [Reading.bind_of_ok hx, Reading.skipGap_bind, Reading.bind_of_ok hloop]
  rfl

/-! ## Bodies that begin with a key -/

/-- The value that a name or string is by itself: no token more is passed. -/
def ReadsAlone (alone : Reading Node) (n : Node) (refs : List Reference) : Prop :=
  ∀ c, ∃ d, alone c = (.ok n, d) ∧ d.ahead = c.ahead ∧ Moved c d [] refs 0

theorem readKeyed_apply (alone : Reading Node) (c : Cursor) :
    readKeyed .forward name l alone c =
      if c.advance.skipGap.kind = .colon then
        readMembers .forward name l c.advance.skipGap.advance.skipGap
      else alone c.advance.skipGap := by
  rw [readKeyed, Reading.advance_bind, Reading.skipGap_bind, Reading.kind_bind]
  split
  · rfl
  · rfl

/-- A key and a colon begin members, and everything else stands alone. -/
theorem keyed_sound {alone : Reading Node} {single : Node} {singleRefs : List Reference}
    (hkey : Key c.current name) (hl : l = c.current.start)
    (hsingle : Body place [c.current] single singleRefs)
    (hflat : single.hasDistinctKeys ∧ single.depth = 0)
    (halone : ReadsAlone alone single singleRefs) (hc : c.limit - c.depth = levels)
    (hread : readKeyed .forward name l alone c = (.ok n, d)) :
    ∃ w g refs, Body place w n refs ∧ Gap g ∧ n.Fits levels ∧ Moved c d (w ++ g) refs n.depth := by
  subst hl
  have hmove := (moved_advance hkey.ne_eof).thenQuiet (moved_skipGap c.advance)
  rw [readKeyed_apply] at hread
  by_cases hcolon : c.advance.skipGap.kind = .colon
  · rw [if_pos hcolon] at hread
    have hcolonmove :
        Moved c.advance.skipGap c.advance.skipGap.advance [c.advance.skipGap.current] [] 0 :=
      moved_advance (by rw [hcolon]; decide)
    have hmove' := (hmove.thenQuiet hcolonmove).thenQuiet (moved_skipGap _)
    obtain ⟨k, v, x, refs, g, w, entries, later, rfl, ⟨hv, hx⟩, hg, hm, rfl, hdistinct, hmove''⟩ :=
      members_sound (hmove'.levels.trans hc) hread
    obtain ⟨hm, hfits⟩ := many_memberWithin.mp hm
    have hfirst := Grammar.Member.mk hkey (gap_ahead c.advance) hcolon
      (gap_ahead c.advance.skipGap.advance) hv
    refine ⟨_, [], refs ++ later, .members (.cons hfirst hg hm), .nil, ?_, ?_⟩
    · exact Node.fits_object.mpr ⟨hdistinct, k, rfl, List.forall_mem_cons.mpr ⟨hx, hfits⟩⟩
    · rw [Node.depth_object, largest_cons]
      have hmoved := hmove''.afterQuiet hmove'
      simpa using hmoved
  · rw [if_neg hcolon] at hread
    obtain ⟨e, he, -, hmove'⟩ := halone c.advance.skipGap
    cases he.symm.trans hread
    refine ⟨[c.current], _, singleRefs, hsingle, gap_ahead c.advance, Node.fits_of_flat hflat, ?_⟩
    rw [hflat.2]
    simpa using hmove'.afterQuiet hmove

theorem keyed_complete_alone {alone : Reading Node} (hne : t.kind ≠ .eof)
    (halone : ReadsAlone alone n refs) (hg : Gap g) (hr : r.kind = .rightParen)
    (ha : c.ahead = t :: (g ++ r :: rest)) :
    ∃ d, readKeyed .forward name l alone c = (.ok n, d) ∧ d.ahead = r :: rest ∧
      Moved c d (t :: g) refs 0 := by
  obtain ⟨hskip, ha'⟩ := moved_skipGap_of hg (advance_ahead_of ha hne) (notNext_cons (hr ▸ rfl))
  have hmove := (moved_advance_of_ahead ha hne).thenQuiet hskip
  obtain ⟨d, hd, hahead, hmove'⟩ := halone c.advance.skipGap
  refine ⟨d, ?_, hahead.trans ha', by simpa using hmove'.afterQuiet hmove⟩
  rw [readKeyed_apply, if_neg (by rw [kind_of_ahead ha', hr]; decide), hd]

theorem keyed_complete_members (alone : Reading Node) {k : Bytes} {x : Node}
    {entries : List (Entry Node)} {behind : List Token} (hkey : Key t k) (hg : Gap g)
    (hcolon : colon.kind = .colon) (hh : Gap h) (hv : Value v x refs) (hbehind : Gap behind)
    (hm : Many (Grammar.Member Value) w entries later)
    (hfits : (Node.object t.start ⟨⟨k, t.start, x⟩ :: entries⟩).Fits levels)
    (hc : c.limit - c.depth = levels) (hr : r.kind = .rightParen)
    (ha : c.ahead = t :: (g ++ colon :: (h ++ v)) ++ behind ++ w ++ r :: rest) :
    ∃ d, readKeyed .forward k t.start alone c =
        (.ok (.object t.start ⟨⟨k, t.start, x⟩ :: entries⟩), d) ∧ d.ahead = r :: rest ∧
      Moved c d (t :: (g ++ colon :: (h ++ v)) ++ behind ++ w) (refs ++ later)
        (Node.object t.start ⟨⟨k, t.start, x⟩ :: entries⟩).depth := by
  obtain ⟨hdistinct, levels, rfl, hinside⟩ := Node.fits_object.mp hfits
  obtain ⟨hx, hinside⟩ := List.forall_mem_cons.mp hinside
  simp only [List.cons_append, List.append_assoc] at ha
  have hne : colon.kind ≠ .eof := by rw [hcolon]; decide
  obtain ⟨hskip, ha1⟩ := moved_skipGap_of hg (advance_ahead_of ha hkey.ne_eof)
    (notNext_cons (by rw [hcolon]; rfl))
  obtain ⟨hskip', ha2⟩ :=
    moved_skipGap_of hh (advance_ahead_of ha1 hne) (hv.begins.notNext (by decide))
  have hmove := (((moved_advance_of_ahead ha hkey.ne_eof).thenQuiet hskip).thenQuiet
    (moved_advance_of_ahead ha1 hne)).thenQuiet hskip'
  have hdistinct' : (k :: entries.map (·.key)).Nodup := hdistinct
  obtain ⟨d, hread, hd, hmove'⟩ := members_complete (l := t.start) (hmove.levels.trans hc) ⟨hv, hx⟩
    hbehind (many_memberWithin.mpr ⟨hm, hinside⟩) hdistinct' hr ha2
  refine ⟨d, ?_, hd, ?_⟩
  · rw [readKeyed_apply, if_pos ((kind_of_ahead ha1).trans hcolon), hread]
  · rw [Node.depth_object, largest_cons]
    simpa using hmove'.afterQuiet hmove

theorem reads_alone_text (place : Location) (text : Bytes) :
    ReadsAlone (pure (.string place text)) (.string place text) [] :=
  fun c => ⟨c, rfl, rfl, .refl c⟩

theorem reads_alone_name (place : Location) (name : Bytes) :
    ReadsAlone (Resolver.forward.resolve name place) (meaning name place) (leaves name place) :=
  fun c => Node.resolve_forward name place c

/-! ## Bodies -/

section Contents

variable {value : Number}

theorem readBody_of_container
    (h : c.current.content = .leftBrace ∨ c.current.content = .leftBracket) :
    readBody .forward place c =
      ((Node.read .forward none c).1, (Node.read .forward none c).2.skipGap) := by
  rw [← Node.read_given_of_container h .forward place, readBody, Reading.current_bind]
  rcases h with h | h <;> rw [h] <;> rfl

theorem readBody_of_textBlock (h : c.current.content = .textBlock text) :
    readBody .forward place c = (.ok (.string place text), c.advance.skipGap) := by
  rw [readBody, Reading.current_bind, h]
  rfl

theorem readBody_of_number (h : c.current.content = .number value) :
    readBody .forward place c = (.ok (.number place value), c.advance.skipGap) := by
  rw [readBody, Reading.current_bind, h]
  rfl

theorem readBody_of_string (h : c.current.content = .string text) :
    readBody .forward place c =
      readKeyed .forward text c.current.start (pure (.string place text)) c := by
  rw [readBody, Reading.current_bind, h]

theorem readBody_of_identifier (h : c.current.content = .identifier) :
    readBody .forward place c =
      readKeyed .forward c.current.lexeme c.current.start
        (Resolver.forward.resolve c.current.lexeme place) c := by
  rw [readBody, Reading.current_bind, h]

/-- Only six kinds of tokens begin a body. -/
theorem readBody_eq_ok (h : readBody .forward place c = (.ok n, d)) :
    (c.current.content = .leftBrace ∨ c.current.content = .leftBracket) ∨
      (∃ text, c.current.content = .textBlock text) ∨ (∃ value, c.current.content = .number value) ∨
      (∃ text, c.current.content = .string text) ∨ c.current.content = .identifier := by
  rw [readBody, Reading.current_bind] at h
  cases hcontent : c.current.content with
  | leftBrace => exact .inl (.inl rfl)
  | leftBracket => exact .inl (.inr rfl)
  | textBlock text => exact .inr (.inl ⟨text, rfl⟩)
  | number value => exact .inr (.inr (.inl ⟨value, rfl⟩))
  | string text => exact .inr (.inr (.inr (.inl ⟨text, rfl⟩)))
  | identifier => exact .inr (.inr (.inr (.inr rfl)))
  | _ =>
    rw [hcontent] at h
    cases h

end Contents

/-- What a body that is a whole object or array derives. -/
theorem container_sound (hopen : c.current.content = .leftBrace ∨ c.current.content = .leftBracket)
    (hc : c.limit - c.depth = levels) (hread : Node.read .forward none c = (.ok n, d)) :
    ∃ w refs, Body place w n refs ∧ n.Fits levels ∧ Moved c d w refs n.depth := by
  obtain ⟨w, refs, ⟨hv, hfits⟩, hmove⟩ := (Node.reads_value levels).sound hc hread
  obtain ⟨t, u, rfl, -⟩ := hv.begins
  have ht := current_of_ahead hmove.ahead
  refine ⟨t :: u, refs, ?_, hfits, hmove⟩
  rcases hopen with hopen | hopen
  · exact .object (Token.kind_eq_leftBrace.mpr (ht ▸ hopen)) hv
  · exact .array (Token.kind_eq_leftBracket.mpr (ht ▸ hopen)) hv

/-- A body is read with the gap behind it. -/
theorem body_sound (hc : c.limit - c.depth = levels)
    (hread : readBody .forward place c = (.ok n, d)) :
    ∃ w g refs, Body place w n refs ∧ Gap g ∧ n.Fits levels ∧ Moved c d (w ++ g) refs n.depth := by
  have hflat (hne : c.current.kind ≠ .eof) : Moved c c.advance.skipGap
      ([c.current] ++ c.advance.ahead.takeWhile fun t => t.kind.isGap) [] 0 :=
    (moved_advance hne).thenQuiet (moved_skipGap c.advance)
  rcases readBody_eq_ok hread with h | ⟨text, h⟩ | ⟨value, h⟩ | ⟨text, h⟩ | h
  · rw [readBody_of_container h] at hread
    obtain ⟨hn, rfl⟩ := Prod.mk.inj hread
    obtain ⟨w, refs, hbody, hfits, hmove⟩ := container_sound h hc (Prod.ext hn rfl)
    exact ⟨w, _, refs, hbody, gap_ahead _, hfits, hmove.thenQuiet (moved_skipGap _)⟩
  · rw [readBody_of_textBlock h] at hread
    cases hread
    exact ⟨_, _, [], .textBlock h, gap_ahead _, Node.fits_of_flat ⟨rfl, rfl⟩,
      hflat (Token.ne_eof_of_content h)⟩
  · rw [readBody_of_number h] at hread
    cases hread
    exact ⟨_, _, [], .number h, gap_ahead _, Node.fits_of_flat ⟨rfl, rfl⟩,
      hflat (Token.ne_eof_of_content h)⟩
  · rw [readBody_of_string h] at hread
    exact keyed_sound (.string h) rfl (.string h) ⟨rfl, rfl⟩ (reads_alone_text place text) hc hread
  · rw [readBody_of_identifier h] at hread
    exact keyed_sound (.name h) rfl (.name h) (Node.meaning_flat _ place) (reads_alone_name place _)
      hc hread

theorem container_complete (hopen : t.kind = .leftBrace ∨ t.kind = .leftBracket)
    (hv : Value (t :: w) n refs) (hfits : n.Fits levels) (hc : c.limit - c.depth = levels)
    (hg : Gap g) (hr : r.kind = .rightParen) (ha : c.ahead = t :: w ++ (g ++ r :: rest)) :
    ∃ d, readBody .forward place c = (.ok n, d) ∧ d.ahead = r :: rest ∧
      Moved c d (t :: w ++ g) refs n.depth := by
  obtain ⟨d, hread, hd, hmove⟩ := (Node.reads_value levels).complete hc ⟨hv, hfits⟩ ha
    (notNext_gap hg (by decide) (notNext_cons (hr ▸ rfl)))
  obtain ⟨hskip, hd'⟩ := moved_skipGap_of hg hd (notNext_cons (hr ▸ rfl))
  have hcontent : c.current.content = .leftBrace ∨ c.current.content = .leftBracket := by
    rw [current_of_ahead ha]
    exact hopen.imp Token.kind_eq_leftBrace.mp Token.kind_eq_leftBracket.mp
  refine ⟨d.skipGap, ?_, hd', hmove.thenQuiet hskip⟩
  rw [readBody_of_container hcontent, hread]

theorem members_body_complete {e : Entry Node} {entries : List (Entry Node)}
    (hm : Many (Grammar.Member Value) w (e :: entries) refs)
    (hfits : (Node.object e.keyLocation ⟨e :: entries⟩).Fits levels)
    (hc : c.limit - c.depth = levels) (hr : r.kind = .rightParen) (ha : c.ahead = w ++ r :: rest) :
    ∃ d, readBody .forward place c = (.ok (.object e.keyLocation ⟨e :: entries⟩), d) ∧
      d.ahead = r :: rest ∧ Moved c d w refs (Node.object e.keyLocation ⟨e :: entries⟩).depth := by
  cases hm with
  | cons first hgap more =>
    cases first with
    | mk hkey hbefore hcolon hbehind hv =>
      have hread (alone : Reading Node) :=
        keyed_complete_members alone hkey hbefore hcolon hbehind hv hgap more hfits hc hr ha
      cases hkey with
      | name h =>
        rw [readBody_of_identifier (current_of_ahead ha ▸ h), current_of_ahead ha]
        exact hread _
      | string h =>
        rw [readBody_of_string (current_of_ahead ha ▸ h), current_of_ahead ha]
        exact hread _

theorem body_complete (hbody : Body place w n refs) (hfits : n.Fits levels)
    (hc : c.limit - c.depth = levels) (hg : Gap g) (hr : r.kind = .rightParen)
    (ha : c.ahead = w ++ (g ++ r :: rest)) :
    ∃ d, readBody .forward place c = (.ok n, d) ∧ d.ahead = r :: rest ∧
      Moved c d (w ++ g) refs n.depth := by
  have hflat {t : Token} (hne : t.kind ≠ .eof) (ha : c.ahead = t :: (g ++ r :: rest)) :
      c.advance.skipGap.ahead = r :: rest ∧ Moved c c.advance.skipGap ([t] ++ g) [] 0 := by
    obtain ⟨hskip, ha'⟩ := moved_skipGap_of hg (advance_ahead_of ha hne) (notNext_cons (hr ▸ rfl))
    exact ⟨ha', (moved_advance_of_ahead ha hne).thenQuiet hskip⟩
  cases hbody with
  | object hopen hv => exact container_complete (.inl hopen) hv hfits hc hg hr ha
  | array hopen hv => exact container_complete (.inr hopen) hv hfits hc hg hr ha
  | textBlock h =>
    exact ⟨_, readBody_of_textBlock (current_of_ahead ha ▸ h), hflat (Token.ne_eof_of_content h) ha⟩
  | number h =>
    exact ⟨_, readBody_of_number (current_of_ahead ha ▸ h), hflat (Token.ne_eof_of_content h) ha⟩
  | @string t text h =>
    rw [readBody_of_string (current_of_ahead ha ▸ h)]
    exact keyed_complete_alone (Token.ne_eof_of_content h) (reads_alone_text place text) hg hr ha
  | @name t h =>
    rw [readBody_of_identifier (current_of_ahead ha ▸ h), current_of_ahead ha,
      (Node.meaning_flat t.lexeme place).2]
    exact keyed_complete_alone (Token.ne_eof_of_content h)
      (reads_alone_name place t.lexeme) hg hr ha
  | members hm =>
    exact members_body_complete (hm.appendGap hg (List.cons_ne_nil _ _)) hfits hc hr
      (by rw [ha, List.append_assoc])

/-! ## Whole traits -/

/-- The traits whose values fit. -/
def Within (levels : Nat) : Form Trait :=
  fun w t refs => Grammar.Trait w t refs ∧ t.value.Fits levels

theorem begins_within (v : List Token) (t : Trait) (refs : List Reference)
    (h : Within levels v t refs) : Begins [.at] v := by
  obtain ⟨h, -⟩ := h
  cases h with
  | bare hsign => exact ⟨_, _, rfl, by rw [hsign]; decide⟩
  | empty hsign => exact ⟨_, _, rfl, by rw [hsign]; decide⟩
  | value hsign => exact ⟨_, _, rfl, by rw [hsign]; decide⟩

/-- What comes behind the name of a trait. -/
def readValue (r : Resolver) (name : Bytes) (location : Location) : Reading Trait := do
  if (← Reading.kind) = .leftParen then
    Reading.advance
    Reading.skipGap
    if (← Reading.kind) = .rightParen then
      Reading.advance
      return ⟨name, .null location, .bare, location⟩
    else
      let value ← readBody r location
      Reading.skipGap
      Reading.expect [.rightParen]
      Reading.advance
      Reading.note (.valueTrait name location)
      return ⟨name, value, .value, location⟩
  else
    Reading.note (.bareTrait name location)
    return ⟨name, .null location, .bare, location⟩

theorem read_eq_ok {t : Trait} : read .forward c = (.ok t, d) ↔
    c.kind = .at ∧ ∃ name e, ShapeId.read c.advance = (.ok name, e) ∧
      readValue .forward name c.location e = (.ok t, d) := by
  rw [read, Reading.location_bind, Reading.expect_bind_eq_ok, Reading.advance_bind,
    Reading.bind_eq_ok, List.mem_singleton]
  rfl

theorem readValue_of_bare (h : c.kind ≠ .leftParen) :
    readValue .forward name l c =
      (.ok ⟨name, .null l, .bare, l⟩, c.note (.bareTrait name l)) := by
  rw [readValue, Reading.kind_bind, if_neg h]
  rfl

theorem readValue_of_empty (h : c.kind = .leftParen)
    (hclose : c.advance.skipGap.kind = .rightParen) :
    readValue .forward name l c = (.ok ⟨name, .null l, .bare, l⟩, c.advance.skipGap.advance) := by
  rw [readValue, Reading.kind_bind, if_pos h, Reading.advance_bind, Reading.skipGap_bind,
    Reading.kind_bind, if_pos hclose]
  rfl

theorem readValue_eq_ok_of_value {t : Trait} (h : c.kind = .leftParen)
    (hclose : c.advance.skipGap.kind ≠ .rightParen) :
    readValue .forward name l c = (.ok t, d) ↔
      ∃ n e, readBody .forward l c.advance.skipGap = (.ok n, e) ∧ e.skipGap.kind = .rightParen ∧
        t = ⟨name, n, .value, l⟩ ∧ d = e.skipGap.advance.note (.valueTrait name l) := by
  rw [readValue, Reading.kind_bind, if_pos h, Reading.advance_bind, Reading.skipGap_bind,
    Reading.kind_bind, if_neg hclose, Reading.bind_eq_ok]
  refine exists_congr fun n => exists_congr fun e => and_congr_right fun _ => ?_
  rw [Reading.skipGap_bind, Reading.expect_bind_eq_ok, Reading.advance_bind, Reading.note_bind,
    Reading.pure_apply, List.mem_singleton, Prod.mk.injEq, Except.ok.injEq]
  exact and_congr_right fun _ => and_congr eq_comm eq_comm

/-- What stands behind a name is nothing, or a body between parentheses. -/
theorem value_sound {t : Trait} {sign : Token} (hsign : sign.kind = .at) (hid : Id w name)
    (hc : c.limit - c.depth = levels)
    (hread : readValue .forward name sign.start c = (.ok t, d)) :
    ∃ x refs, Within levels (sign :: (w ++ x)) t refs ∧ Moved c d x refs t.value.depth := by
  by_cases hopen : c.kind = .leftParen
  · have hmove := (moved_advance (by rw [hopen]; decide)).thenQuiet (moved_skipGap c.advance)
    by_cases hclose : c.advance.skipGap.kind = .rightParen
    · rw [readValue_of_empty hopen hclose] at hread
      cases hread
      have hempty := Grammar.Trait.empty hsign hid hopen (gap_ahead c.advance) hclose
      exact ⟨_, [], ⟨hempty, Node.fits_of_flat ⟨rfl, rfl⟩⟩,
        hmove.thenQuiet (moved_advance (by rw [hclose]; decide))⟩
    · obtain ⟨n, e, hbody, hend, rfl, rfl⟩ := (readValue_eq_ok_of_value hopen hclose).mp hread
      obtain ⟨b, g, refs, hb, hg, hfits, hmove'⟩ := body_sound (hmove.levels.trans hc) hbody
      have hvalue := Grammar.Trait.value hsign hid hopen (gap_ahead c.advance) hb
        (hg.append (gap_ahead e)) hend
      have hlast : Moved e.skipGap e.skipGap.advance [e.skipGap.current] [] 0 :=
        moved_advance (by rw [hend]; decide)
      refine ⟨_, refs, ⟨hvalue, hfits⟩, ?_⟩
      have hmoved := ((((hmove'.afterQuiet hmove).thenQuiet (moved_skipGap e)).thenQuiet
        hlast).thenQuiet (moved_note _ (.valueTrait name sign.start)))
      simpa using hmoved
  · rw [readValue_of_bare hopen] at hread
    cases hread
    refine ⟨[], [], ⟨?_, Node.fits_of_flat ⟨rfl, rfl⟩⟩, moved_note c _⟩
    rw [List.append_nil]
    exact .bare hsign hid

theorem bare_complete (ha : c.ahead = rest) (hrest : NotNext Token.Kind.joinsTrait rest) :
    ∃ d, readValue .forward name l c = (.ok ⟨name, .null l, .bare, l⟩, d) ∧ d.ahead = rest ∧
      Moved c d [] [] 0 := by
  have hk := (ha.symm ▸ hrest : NotNext Token.Kind.joinsTrait c.ahead).kind rfl
  have hopen : c.kind ≠ .leftParen := by
    intro hopen
    rw [hopen] at hk
    cases hk
  exact ⟨_, readValue_of_bare hopen, ha, moved_note c _⟩

theorem empty_complete (hopen : t.kind = .leftParen) (hg : Gap g) (hclose : r.kind = .rightParen)
    (ha : c.ahead = t :: (g ++ [r]) ++ rest) :
    ∃ d, readValue .forward name l c = (.ok ⟨name, .null l, .bare, l⟩, d) ∧ d.ahead = rest ∧
      Moved c d (t :: (g ++ [r])) [] 0 := by
  rw [List.cons_append, List.append_assoc] at ha
  have ht : t.kind ≠ .eof := by rw [hopen]; decide
  have hr : r.kind ≠ .eof := by rw [hclose]; decide
  obtain ⟨hskip, ha'⟩ := moved_skipGap_of hg (advance_ahead_of ha ht)
    (notNext_cons (by rw [hclose]; rfl))
  exact ⟨_, readValue_of_empty ((kind_of_ahead ha).trans hopen) ((kind_of_ahead ha').trans hclose),
    advance_ahead_of ha' hr,
    ((hskip.thenQuiet (moved_advance_of_ahead ha' hr)).afterQuiet (moved_advance_of_ahead ha ht))⟩

theorem body_begins (h : Body place w n refs) : Begins firstKinds w := by
  cases h with
  | object hopen => exact ⟨_, _, rfl, by rw [hopen]; decide⟩
  | array hopen => exact ⟨_, _, rfl, by rw [hopen]; decide⟩
  | textBlock h => exact ⟨_, _, rfl, by simp [Token.kind, h, Token.Content.kind, firstKinds]⟩
  | number h => exact ⟨_, _, rfl, by simp [Token.kind, h, Token.Content.kind, firstKinds]⟩
  | string h => exact ⟨_, _, rfl, by simp [Token.kind, h, Token.Content.kind, firstKinds]⟩
  | name h => exact ⟨_, _, rfl, by simp [Token.kind, h, Token.Content.kind, firstKinds]⟩
  | members hm =>
    cases hm with
    | cons first =>
      obtain ⟨t, u, rfl, ht⟩ := first.begins
      have hsub : [Token.Kind.identifier, .string] ⊆ firstKinds := by decide
      exact ⟨_, _, rfl, hsub ht⟩

theorem value_complete (hopen : t.kind = .leftParen) (hg : Gap g) (hb : Body l b n refs)
    (hfits : n.Fits levels) (hh : Gap h) (hclose : r.kind = .rightParen)
    (hc : c.limit - c.depth = levels) (ha : c.ahead = t :: (g ++ b ++ h ++ [r]) ++ rest) :
    ∃ d, readValue .forward name l c = (.ok ⟨name, n, .value, l⟩, d) ∧ d.ahead = rest ∧
      Moved c d (t :: (g ++ b ++ h ++ [r])) refs n.depth := by
  simp only [List.cons_append, List.append_assoc] at ha
  have ht : t.kind ≠ .eof := by rw [hopen]; decide
  have hr : r.kind ≠ .eof := by rw [hclose]; decide
  obtain ⟨hskip, ha1⟩ := moved_skipGap_of hg (advance_ahead_of ha ht)
    ((body_begins hb).notNext (by decide))
  have hmove := (moved_advance_of_ahead ha ht).thenQuiet hskip
  obtain ⟨d, hread, ha2, hmove'⟩ := body_complete hb hfits (hmove.levels.trans hc) hh hclose ha1
  obtain ⟨hskip', ha3⟩ := moved_skipGap_of .nil ha2 (notNext_cons (by rw [hclose]; rfl))
  have hfirst : c.advance.skipGap.kind ≠ .rightParen := by
    obtain ⟨u, x, rfl, hu⟩ := body_begins hb
    rw [kind_of_ahead ha1]
    exact fun hk => absurd (hk ▸ hu) (by decide)
  have hmoved := (((hmove'.afterQuiet hmove).thenQuiet hskip').thenQuiet
    (moved_advance_of_ahead ha3 hr)).thenQuiet (moved_note _ (.valueTrait name l))
  refine ⟨_, (readValue_eq_ok_of_value ((kind_of_ahead ha).trans hopen) hfirst).mpr
    ⟨n, d, hread, (kind_of_ahead ha3).trans hclose, rfl, rfl⟩, advance_ahead_of ha3 hr, ?_⟩
  simpa using hmoved

/-- A trait begins with its sign and its name. -/
theorem name_complete {sign : Token} (hsign : sign.kind = .at) (hid : Id w name)
    (ha : c.ahead = sign :: (w ++ rest)) (hrest : NotNext Token.Kind.joinsId rest) :
    ∃ e, read .forward c = readValue .forward name sign.start e ∧ e.ahead = rest ∧
      Moved c e (sign :: w) [] 0 := by
  have hne : sign.kind ≠ .eof := by rw [hsign]; decide
  have hat : c.kind ∈ [Token.Kind.at] := List.mem_singleton.mpr ((kind_of_ahead ha).trans hsign)
  obtain ⟨e, hread, he, hmove⟩ := (ShapeId.reads_id _).complete (c := c.advance) rfl ⟨hid, rfl⟩
    (advance_ahead_of ha hne) hrest
  refine ⟨e, ?_, he, (moved_advance_of_ahead ha hne).thenQuiet hmove⟩
  rw [read, Reading.location_bind, Reading.expect_bind_of_mem hat, Reading.advance_bind,
    Reading.bind_of_ok hread, location_of_ahead ha]
  rfl

/-- A trait is read up to the first token that does not go on with it. -/
theorem reads_trait (levels : Nat) :
    Reads levels (read .forward) (Within levels) (fun t => t.value.depth)
      Token.Kind.joinsTrait where
  sound := by
    intro c d t hc hread
    obtain ⟨hsign, name, e, hid, hvalue⟩ := read_eq_ok.mp hread
    have hmove : Moved c c.advance [c.current] [] 0 := moved_advance (by rw [hsign]; decide)
    obtain ⟨w, _, ⟨hid, rfl⟩, hmove'⟩ := (ShapeId.reads_id levels).sound (hmove.levels.trans hc) hid
    have hmove'' := hmove.thenQuiet hmove'
    obtain ⟨x, refs, ht, hmoved⟩ := value_sound hsign hid (hmove''.levels.trans hc) hvalue
    exact ⟨_, refs, ht, by simpa using hmoved.afterQuiet hmove''⟩
  complete := by
    rintro c w t refs rest hc ⟨ht, hfits⟩ ha hrest
    cases ht with
    | bare hsign hid =>
      obtain ⟨e, hread, he, hmove⟩ := name_complete hsign hid ha (hrest.imp (by decide))
      obtain ⟨d, hvalue, hd, hmove'⟩ := bare_complete he hrest
      exact ⟨d, hread.trans hvalue, hd, by simpa using hmove.trans hmove'⟩
    | empty hsign hid hopen hg hclose =>
      rw [List.cons_append, List.append_assoc] at ha
      obtain ⟨e, hread, he, hmove⟩ := name_complete hsign hid ha (notNext_cons (by rw [hopen]; rfl))
      obtain ⟨d, hvalue, hd, hmove'⟩ := empty_complete hopen hg hclose he
      exact ⟨d, hread.trans hvalue, hd, by simpa using hmove.trans hmove'⟩
    | value hsign hid hopen hg hb hh hclose =>
      rw [List.cons_append, List.append_assoc] at ha
      obtain ⟨e, hread, he, hmove⟩ := name_complete hsign hid ha (notNext_cons (by rw [hopen]; rfl))
      obtain ⟨d, hvalue, hd, hmove'⟩ :=
        value_complete hopen hg hb hfits hh hclose (hmove.levels.trans hc) he
      exact ⟨d, hread.trans hvalue, hd, by simpa using hmove'.afterQuiet hmove⟩

end Trait

end ShapeTraits
