-- The reader of documents reads exactly the grammar of documents: the traits of
-- a statement, a statement, and statements up to the end.
import ShapeTraits.Proofs.TraitReading

namespace ShapeTraits

open Cursor Grammar

/-! ## Traits in a row -/

namespace Trait

variable {levels : Nat} {w : List Token} {ts : List Trait} {refs : List Reference}

theorem many_within : Many (Within levels) w ts refs ↔
    Many Grammar.Trait w ts refs ∧ ∀ t ∈ ts, t.value.Fits levels :=
  ⟨fun h => ⟨h.imp fun _ _ _ ht => ht.1, h.forall fun _ _ _ ht => ht.2⟩,
    fun h => h.1.withProperty h.2⟩

theorem reads_next (levels : Nat) :
    ReadsNext levels (readNext .forward) id (fun _ => True) (Within levels)
      (fun t => t.value.depth) Token.Kind.joinsTrait :=
  (reads_trait levels).gather (by decide)

end Trait

namespace Apply

variable {c d : Cursor} {levels : Nat} {ts : List Trait} {s : Apply} {g w rest : List Token}
  {refs : List Reference}

/-! ## The traits of a statement -/

/-- How deep the values of some traits nest. -/
def depthOf (ts : List Trait) : Nat := largest (fun t => t.value.depth) ts

theorem readTraits_of_at (h : c.kind = .at) : readTraits .forward c =
    (Trait.read .forward >>= fun t => pure [t]) c := by
  rw [readTraits, Reading.kind_bind, h]

theorem readTraits_of_leftBrace (h : c.kind = .leftBrace) : readTraits .forward c = (.ok ts, d) ↔
    ∃ e, Trait.readAll .forward c.advance.skipGap = (.ok ts, e) ∧ e.kind = .rightBrace ∧
      d = e.advance := by
  rw [readTraits, Reading.kind_bind, h]
  dsimp only
  rw [Reading.advance_bind, Reading.skipGap_bind, Reading.bind_eq_ok]
  simp only [Reading.expect_bind_eq_ok, Reading.advance_bind, Reading.pure_apply,
    List.mem_singleton, Prod.mk.injEq, Except.ok.injEq]
  constructor
  · rintro ⟨_, e, hall, hclose, rfl, rfl⟩
    exact ⟨e, hall, hclose, rfl⟩
  · rintro ⟨e, hall, hclose, rfl⟩
    exact ⟨ts, e, hall, hclose, rfl, rfl⟩

theorem kind_of_readTraits (h : readTraits .forward c = (.ok ts, d)) :
    c.kind = .at ∨ c.kind = .leftBrace := by
  rw [readTraits, Reading.kind_bind] at h
  cases hk : c.kind with
  | «at» => exact .inl rfl
  | leftBrace => exact .inr rfl
  | _ =>
    rw [hk] at h
    cases h

/-- The traits of a statement whose values fit. -/
def TraitsWithin (levels : Nat) : Form (List Trait) :=
  fun w ts refs => Traits w ts refs ∧ ∀ t ∈ ts, t.value.Fits levels

theorem traits_begin {levels : Nat} (h : TraitsWithin levels w ts refs) :
    Begins [.at, .leftBrace] w := by
  cases h.1 with
  | one ht =>
    have ht' : Trait.Within levels w _ refs := ⟨ht, h.2 _ List.mem_cons_self⟩
    exact (Trait.begins_within _ _ _ ht').mono (by decide)
  | block hopen => exact ⟨_, _, rfl, by rw [hopen]; decide⟩

theorem reads_traits (levels : Nat) :
    Reads levels (readTraits .forward) (TraitsWithin levels) depthOf Token.Kind.joinsTrait where
  sound := by
    intro c d ts hc hread
    rcases kind_of_readTraits hread with hk | hk
    · rw [readTraits_of_at hk] at hread
      obtain ⟨t, e, ht, hread⟩ := Reading.bind_eq_ok.mp hread
      cases hread
      obtain ⟨w, refs, ⟨ht, hfits⟩, hmove⟩ := (Trait.reads_trait levels).sound hc ht
      exact ⟨w, refs, ⟨.one ht, List.forall_mem_singleton.mpr hfits⟩,
        by simpa [depthOf] using hmove⟩
    · obtain ⟨e, hall, hclose, rfl⟩ := (readTraits_of_leftBrace hk).mp hread
      obtain ⟨-, g, as, w, refs, hg, hm, hview, -, hmove⟩ :=
        (Trait.reads_next levels).sound_enclosed Trait.begins_within hc (by rw [hk]; decide) hall
          (fun _ => by rw [hclose]; decide)
      cases hview
      obtain ⟨hm, hfits⟩ := Trait.many_within.mp hm
      exact ⟨_, refs, ⟨.block hk hg hm hclose, hfits⟩, hmove⟩
  complete := by
    rintro c w ts refs rest hc ⟨hts, hfits⟩ ha hrest
    cases hts with
    | @one w t _ ht =>
      have hfit := List.forall_mem_singleton.mp hfits
      obtain ⟨d, hread, hd, hmove⟩ := (Trait.reads_trait levels).complete hc ⟨ht, hfit⟩ ha hrest
      have hk : c.kind = .at := by
        obtain ⟨u, x, rfl, hu⟩ := Trait.begins_within w t refs ⟨ht, hfit⟩
        exact (kind_of_ahead ha).trans (List.mem_singleton.mp hu)
      refine ⟨d, ?_, hd, by simpa [depthOf] using hmove⟩
      rw [readTraits_of_at hk, Reading.bind_of_ok hread]
      rfl
    | @block l g w r _ _ hopen hg hm hclose =>
      obtain ⟨as, d, hloop, hview, hk, hd, hmove⟩ :=
        (Trait.reads_next levels).complete_enclosed (· != .at) (s := [])
          Trait.begins_within (by decide) (fun _ _ _ => trivial) (by rw [hopen]; decide)
          (by rw [hclose]; decide) (by rw [hclose]; decide) (by rw [hclose]; decide)
          (by rw [hclose]; decide) hc hg (Trait.many_within.mpr ⟨hm, hfits⟩) trivial ha
      cases hview
      exact ⟨d.advance, (readTraits_of_leftBrace ((kind_of_ahead ha).trans hopen)).mpr
        ⟨d, hloop, hk.trans hclose, rfl⟩, hd, hmove⟩

/-! ## Statements -/

theorem readKeyword_eq_ok {u : Unit} : readKeyword c = (.ok u, d) ↔
    c.current.content = .identifier ∧ c.current.lexeme = keyword ∧ d = c.advance := by
  rw [readKeyword, Reading.current_bind]
  constructor
  · intro h
    cases hcontent : c.current.content with
    | identifier =>
      rw [hcontent] at h
      dsimp only at h
      by_cases hlexeme : c.current.lexeme = keyword
      · rw [if_pos hlexeme] at h
        cases h
        exact ⟨rfl, hlexeme, rfl⟩
      · rw [if_neg hlexeme] at h
        cases h
    | _ =>
      rw [hcontent] at h
      cases h
  · rintro ⟨hcontent, hlexeme, rfl⟩
    rw [hcontent]
    dsimp only
    rw [if_pos hlexeme]
    rfl

/-- The steps of a statement behind its keyword. -/
theorem read_eq_ok : read .forward c = (.ok s, d) ↔
    c.current.content = .identifier ∧ c.current.lexeme = keyword ∧
      c.advance.kind ∈ [Token.Kind.space, .newline] ∧
      ∃ target e ts f, ShapeId.read c.advance.skipTrivia = (.ok target, e) ∧
        readTraits .forward e.skipTrivia = (.ok ts, f) ∧ s = ⟨target, c.location, ts⟩ ∧
        d = f.note (.applied target ts.length) := by
  rw [read, Reading.location_bind, Reading.bind_eq_ok]
  simp only [readKeyword_eq_ok, Reading.expect_bind_eq_ok, Reading.skipTrivia_bind]
  simp only [Reading.bind_eq_ok, Reading.skipTrivia_bind, Reading.note_bind, Reading.pure_apply,
    Prod.mk.injEq, Except.ok.injEq]
  constructor
  · rintro ⟨_, _, ⟨hname, hkeyword, rfl⟩, hblank, target, e, hid, ts, f, hts, rfl, rfl⟩
    exact ⟨hname, hkeyword, hblank, target, e, ts, f, hid, hts, rfl, rfl⟩
  · rintro ⟨hname, hkeyword, hblank, target, e, ts, f, hid, hts, rfl, rfl⟩
    exact ⟨(), _, ⟨hname, hkeyword, rfl⟩, hblank, target, e, hid, ts, f, hts, rfl, rfl⟩

/-- The statements whose traits have values that fit. -/
def Within (levels : Nat) : Form Apply :=
  fun w s refs => Statement w s refs ∧ ∀ t ∈ s.traits, t.value.Fits levels

theorem begins_within (v : List Token) (s : Apply) (refs : List Reference)
    (h : Within levels v s refs) : Begins [.identifier] v := by
  obtain ⟨h, -⟩ := h
  cases h with
  | mk hname => exact ⟨_, _, rfl, List.mem_singleton.mpr (Token.kind_eq_identifier.mpr hname)⟩

/-- The trivia at a blank begin with the blank. -/
theorem trivia_at_blank (h : c.kind ∈ [Token.Kind.space, .newline]) :
    ∃ g, Trivia g ∧ (c.current.kind = .space ∨ c.current.kind = .newline) ∧
      Moved c c.skipTrivia (c.current :: g) [] 0 := by
  have hblank : c.kind = .space ∨ c.kind = .newline := by simpa using h
  have hne : c.kind ≠ .eof := by rcases hblank with hk | hk <;> rw [hk] <;> decide
  have htrivia : c.current.kind.isTrivia = true := by
    rcases hblank with hk | hk
    · exact (congrArg Token.Kind.isTrivia hk).trans rfl
    · exact (congrArg Token.Kind.isTrivia hk).trans rfl
  have hmove := moved_skipTrivia c
  rw [ahead_eq_cons hne, List.takeWhile_cons_of_pos (p := fun t : Token => t.kind.isTrivia) htrivia]
    at hmove
  exact ⟨_, List.all_eq_true.mp List.all_takeWhile, hblank, hmove⟩

/-- A statement is read up to the first token that does not go on with its last
trait. -/
theorem reads_statement (levels : Nat) :
    Reads levels (read .forward) (Within levels) (fun s => depthOf s.traits)
      Token.Kind.joinsTrait where
  sound := by
    intro c d s hc hread
    obtain ⟨hname, hkeyword, hblank, target, e, ts, f, hid, hts, rfl, rfl⟩ := read_eq_ok.mp hread
    have hmove : Moved c c.advance [c.current] [] 0 := moved_advance (Token.ne_eof_of_content hname)
    obtain ⟨g, hg, hblank, hskip⟩ := trivia_at_blank hblank
    have hmove' := hmove.thenQuiet hskip
    obtain ⟨w, _, ⟨hid, rfl⟩, hidmove⟩ :=
      (ShapeId.reads_id levels).sound (hmove'.levels.trans hc) hid
    have hmove'' := (hmove'.thenQuiet hidmove).thenQuiet (moved_skipTrivia e)
    obtain ⟨x, refs, ⟨hts, hfits⟩, htsmove⟩ :=
      (reads_traits levels).sound (hmove''.levels.trans hc) hts
    refine ⟨_, refs, ⟨.mk hname hkeyword hblank hg hid (trivia_ahead e) hts, hfits⟩, ?_⟩
    have hmoved := (htsmove.afterQuiet hmove'').thenQuiet (moved_note f (.applied target ts.length))
    simpa using hmoved
  complete := by
    rintro c w s refs rest hc ⟨hs, hfits⟩ ha hrest
    cases hs with
    | @mk first blank g w h x target ts _ hname hkeyword hblank hg hid hh hts =>
      simp only [List.cons_append, List.append_assoc] at ha
      have hne := Token.ne_eof_of_content hname
      have htraits : Begins [.at, .leftBrace] x := traits_begin ⟨hts, hfits⟩
      have hg' : Trivia (blank :: g) :=
        List.forall_mem_cons.mpr ⟨by rcases hblank with hk | hk <;> rw [hk] <;> rfl, hg⟩
      have ha1 := advance_ahead_of ha hne
      obtain ⟨hskip, ha2⟩ := moved_skipTrivia_of hg' ha1 (hid.begins.notNext (by decide))
      have hmove := (moved_advance_of_ahead ha hne).thenQuiet hskip
      have hnext : NotNext Token.Kind.joinsId (h ++ (x ++ rest)) := by
        cases h with
        | nil => exact htraits.notNext (by decide)
        | cons u h =>
          have hu : ∀ k, Token.Kind.isTrivia k = true → k.joinsId = false := by decide
          exact notNext_cons (hu _ (hh u List.mem_cons_self))
      obtain ⟨e, hread, ha3, hidmove⟩ := (ShapeId.reads_id levels).complete
        (hmove.levels.trans hc) ⟨hid, rfl⟩ ha2 hnext
      obtain ⟨hskip', ha4⟩ := moved_skipTrivia_of hh ha3 (htraits.notNext (by decide))
      have hmove' := (hmove.thenQuiet hidmove).thenQuiet hskip'
      obtain ⟨f, hread', hf, htsmove⟩ := (reads_traits levels).complete
        (hmove'.levels.trans hc) ⟨hts, hfits⟩ ha4 hrest
      have hmoved :=
        (htsmove.afterQuiet hmove').thenQuiet (moved_note f (.applied target ts.length))
      refine ⟨_, read_eq_ok.mpr ⟨current_of_ahead ha ▸ hname, current_of_ahead ha ▸ hkeyword, ?_,
        target, e, ts, f, hread, hread', by rw [location_of_ahead ha], rfl⟩, hf,
          by simpa using hmoved⟩
      rw [kind_of_ahead ha1]
      simpa using hblank

/-! ## Documents -/

theorem many_within {ss : List Apply} : Many (Within levels) w ss refs ↔
    Many Statement w ss refs ∧ ∀ s ∈ ss, ∀ t ∈ s.traits, t.value.Fits levels :=
  ⟨fun h => ⟨h.imp fun _ _ _ hs => hs.1, h.forall fun _ _ _ hs => hs.2⟩,
    fun h => h.1.withProperty h.2⟩

theorem reads_next (levels : Nat) :
    ReadsNext levels (readNext .forward) id (fun _ => True) (Within levels)
      (fun s => depthOf s.traits) Token.Kind.joinsTrait :=
  (reads_statement levels).gather (by decide)

/-- Two ways to split some tokens before their first end are one. -/
theorem before_the_end_eq {x ahead : List Token} {eof : Token} (hend : eof.kind = .eof)
    (hw : ∀ t ∈ w, t.kind ≠ .eof) (hx : ∀ t ∈ x, t.kind ≠ .eof)
    (hahead : (ahead.headD .missingEof).kind = .eof) (h : w ++ [eof] = x ++ ahead) : w = x := by
  have hstop : ahead.takeWhile (fun t => t.kind != .eof) = [] := by
    cases ahead with
    | nil => rfl
    | cons t ahead => exact List.takeWhile_cons_of_neg (by simpa using hahead)
  have hsplit := congrArg (List.takeWhile fun t : Token => t.kind != .eof) h
  rw [List.takeWhile_append_of_pos fun t ht => bne_iff_ne.mpr (hw t ht),
    List.takeWhile_append_of_pos fun t ht => bne_iff_ne.mpr (hx t ht), hstop,
    List.takeWhile_cons_of_neg (by simp [hend]), List.append_nil, List.append_nil] at hsplit
  exact hsplit

theorem readAll_sound {ss : List Apply} (hc : c.limit - c.depth = levels)
    (hread : readAll .forward c = (.ok ss, d)) :
    d.kind = .eof ∧ ∃ g w refs, Gap g ∧ Many Statement w ss refs ∧
      (∀ s ∈ ss, ∀ t ∈ s.traits, t.value.Fits levels) ∧
      Moved c d (g ++ w) refs (largest (fun s => depthOf s.traits) ss) := by
  rw [readAll, Reading.skipGap_bind] at hread
  obtain ⟨hstop, as, w, refs, hm, hview, -, hmove⟩ :=
    (reads_next levels).sound_loop begins_within ((moved_skipGap c).levels.trans hc) hread
  cases hview
  obtain ⟨hm, hfits⟩ := many_within.mp hm
  exact ⟨beq_iff_eq.mp hstop, _, w, refs, gap_ahead c, hm, hfits,
    hmove.afterQuiet (moved_skipGap c)⟩

theorem readAll_complete {ss : List Apply} {eof : Token} (hc : c.limit - c.depth = levels)
    (hend : eof.kind = .eof) (hg : Gap g) (hm : Many Statement w ss refs)
    (hfits : ∀ s ∈ ss, ∀ t ∈ s.traits, t.value.Fits levels)
    (ha : c.ahead = g ++ (w ++ eof :: rest)) :
    ∃ d, readAll .forward c = (.ok ss, d) ∧ d.ahead = eof :: rest ∧
      Moved c d (g ++ w) refs (largest (fun s => depthOf s.traits) ss) := by
  have hm' := many_within.mpr ⟨hm, hfits⟩
  obtain ⟨hskip, ha'⟩ := moved_skipGap_of hg ha
    (notNext_many hm' begins_within (by decide) (notNext_cons (by rw [hend]; rfl)))
  obtain ⟨as, d, hloop, hview, hd, hmove⟩ :=
    (reads_next levels).complete_loop (· == .eof) (s := []) begins_within (by decide)
      (fun _ _ _ => trivial) (by rw [hend]; rfl) (by rw [hend]; rfl) (by rw [hend]; rfl)
      (hskip.levels.trans hc) hm' trivial ha'
  cases hview
  exact ⟨d, hloop, hd, hmove.afterQuiet hskip⟩

/-! ## The laws -/

/-- A document is read exactly if it is one, no values in it have equal keys,
and none nests deeper than the limit. What is read is what it stands for. -/
theorem exactly_the_grammatical_documents_are_read (w : List Token) (eof : Token)
    (hend : eof.kind = .eof) (hw : ∀ t ∈ w, t.kind ≠ .eof) (limit : Nat) (ss : List Apply)
    (refs : List Reference) :
    (∃ d, readAll .forward (ofTokens (w ++ [eof]) limit) = (.ok ss, d) ∧ d.references = refs) ↔
      Document (w ++ [eof]) ss refs ∧
        ∀ s ∈ ss, ∀ t ∈ s.traits, t.value.hasDistinctKeys ∧ t.value.depth ≤ limit := by
  have ha := ofTokens_ahead_of_end hend w limit
  have hc (tokens : List Token) :
      (ofTokens tokens limit).limit - (ofTokens tokens limit).depth = limit := rfl
  constructor
  · rintro ⟨d, hread, rfl⟩
    obtain ⟨hk, g, x, refs, hg, hm, hfits, hmove⟩ := readAll_sound (hc _) hread
    have hx : w = g ++ x :=
      before_the_end_eq hend hw hmove.noEnd hk (ha.symm.trans hmove.ahead)
    have hrefs : d.references = refs := hmove.references.trans (List.nil_append refs)
    rw [hx, hrefs]
    exact ⟨.mk hg hm hend, fun s hs t ht =>
      ⟨(hfits s hs t ht).distinct, (hfits s hs t ht).depth_le⟩⟩
  · rintro ⟨hdocument, hfits⟩
    generalize hall : w ++ [eof] = all at hdocument ha
    cases hdocument with
    | @mk g x eof' _ _ hg hm hend' =>
      obtain ⟨d, hread, -, hmove⟩ := readAll_complete (hc _) hend' hg hm
        (fun s hs t ht => ⟨(hfits s hs t ht).1, (hfits s hs t ht).2⟩)
        (ha.trans (List.append_assoc _ _ _))
      exact ⟨d, hread, hmove.references.trans (List.nil_append _)⟩

/-- The document `apply x @y`. -/
theorem one_bare_trait_is_a_document :
    let at0 : Location := .nowhere
    let first : Token := ⟨.identifier, utf8 "apply", at0, at0⟩
    let blank : Token := ⟨.space, utf8 " ", at0, at0⟩
    let x : Token := ⟨.identifier, utf8 "x", at0, at0⟩
    let sign : Token := ⟨.at, utf8 "@", at0, at0⟩
    let y : Token := ⟨.identifier, utf8 "y", at0, at0⟩
    ∃ d, readAll .forward (ofTokens [first, blank, x, blank, sign, y, .missingEof] 0) =
        (.ok [⟨utf8 "x", at0, [⟨utf8 "y", .null at0, .bare, at0⟩]⟩], d) ∧ d.references = [] := by
  intro at0 first blank x sign y
  have hname (t : Token) (h : t.kind = .identifier) : Id [t] t.lexeme := by
    have hid := Id.mk (w := []) (x := []) (y := []) h .nil .absent .absent
    simpa using hid
  have htraits : Traits [sign, y] [⟨utf8 "y", .null at0, .bare, at0⟩] [] :=
    .one (.bare rfl (hname y rfl))
  have hblank : Trivia [blank] := by
    intro t ht
    rw [List.mem_singleton.mp ht]
    rfl
  have hstatement : Statement (first :: blank :: ([] ++ [x] ++ [blank] ++ [sign, y]))
      ⟨utf8 "x", at0, [⟨utf8 "y", .null at0, .bare, at0⟩]⟩ [] :=
    .mk rfl rfl (.inl rfl) .nil (hname x rfl) hblank htraits
  refine (exactly_the_grammatical_documents_are_read [first, blank, x, blank, sign, y] .missingEof
    rfl (by decide) 0 _ []).mpr ⟨?_, by simp [Node.hasDistinctKeys, Node.depth]⟩
  exact .mk .nil (.cons hstatement .nil .nil) rfl

end Apply

end ShapeTraits
