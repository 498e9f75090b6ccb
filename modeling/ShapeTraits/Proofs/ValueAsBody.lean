-- Which values can stand in a trait by themselves: all of them but names of several
-- parts, which the reader of a trait's body breaks off behind their first part.
import Mathlib
import ShapeTraits.Proofs.Relocation
import ShapeTraits.Proofs.TraitReading
import ShapeTraits.Token.Lexer

namespace ShapeTraits

open Grammar

/-! ## Joined names -/

/-- A name is one identifier, or goes on with a sign that joins it to its next part. -/
theorem Grammar.Id.single_or_joined {t : Token} {w : List Token} {text : Bytes}
    (h : Id (t :: w) text) :
    t.content = .identifier ∧
      (w = [] ∧ text = t.lexeme ∨ ∃ u more, w = u :: more ∧ u.kind.joinsId = true) := by
  cases h with
  | mk hname hsegments hshape hmember =>
    refine ⟨Token.kind_eq_identifier.mp hname, ?_⟩
    cases hsegments with
    | cons hsign => exact .inr ⟨_, _, rfl, by rw [hsign]; rfl⟩
    | nil =>
      cases hshape with
      | present hsign => exact .inr ⟨_, _, rfl, by rw [hsign]; rfl⟩
      | absent =>
        cases hmember with
        | present hsign => exact .inr ⟨_, _, rfl, by rw [hsign]; rfl⟩
        | absent => exact .inl ⟨rfl, by simp⟩

/-- A name of more than one part. -/
def Grammar.IsJoined (v : List Token) : Prop := 1 < v.length ∧ ∃ text, Id v text

theorem Grammar.IsJoined.parts {v : List Token} (h : IsJoined v) :
    ∃ t u more, v = t :: u :: more ∧ t.content = .identifier ∧ u.kind.joinsId = true := by
  obtain ⟨hlength, text, hid⟩ := h
  obtain ⟨t, w, rfl, -⟩ := hid.begins
  obtain ⟨hname, ⟨rfl, -⟩ | ⟨u, more, rfl, hu⟩⟩ := hid.single_or_joined
  · exact absurd hlength (Nat.lt_irrefl 1)
  · exact ⟨t, u, more, rfl, hname, hu⟩

/-- A sign that joins names keeps no message of its own where it is refused. -/
theorem Cursor.unexpected_of_joinsId {c : Cursor} (h : c.kind.joinsId = true)
    (expected : List Token.Kind) :
    c.unexpected expected = ⟨.unexpected c.current expected, c.location⟩ := by
  unfold Cursor.unexpected
  cases hcontent : c.current.content with
  | error fault =>
    rw [Cursor.kind, Token.kind, hcontent] at h
    cases h
  | _ => rfl

namespace Trait

variable {c d e : Cursor} {levels : Nat} {l place : Location} {name : Bytes} {n : Node}
  {t u opens closes sign : Token} {v w rest : List Token} {refs : List Reference}

/-! ## Values as bodies -/

/-- Every value but a joined name is a body, which stands for the same but for its
place. -/
theorem body_of_value (h : Value v n refs) (hjoined : ¬IsJoined v) (place : Location) :
    ∃ m later, Body place v m later ∧ m.bare id = n.bare id ∧ namesOf later = namesOf refs := by
  cases h with
  | string h => exact ⟨_, _, .string h, rfl, rfl⟩
  | textBlock h => exact ⟨_, _, .textBlock h, rfl, rfl⟩
  | number h => exact ⟨_, _, .number h, rfl, rfl⟩
  | object hopen hg hm hclose => exact ⟨_, _, .object hopen (.object hopen hg hm hclose), rfl, rfl⟩
  | array hopen hg hm hclose => exact ⟨_, _, .array hopen (.array hopen hg hm hclose), rfl, rfl⟩
  | @id t w text hid =>
    obtain ⟨hname, ⟨rfl, rfl⟩ | ⟨u, more, rfl, -⟩⟩ := hid.single_or_joined
    · exact ⟨_, _, .name hname, meaning_bare _ _ _, namesOf_leaves _ _ _⟩
    · exact absurd ⟨by simp, text, hid⟩ hjoined

/-- A trait with a value in its parentheses is read. -/
theorem read_of_value (hsign : sign.kind = .at) (hid : Id w name) (hopen : opens.kind = .leftParen)
    (hclose : closes.kind = .rightParen) (hv : Value v n refs) (hfits : n.Fits levels)
    (hjoined : ¬IsJoined v) (hc : c.limit - c.depth = levels)
    (ha : c.ahead = sign :: (w ++ opens :: (v ++ closes :: rest))) :
    ∃ m later d, read .forward c = (.ok ⟨name, m, .value, sign.start⟩, d) ∧ m.bare id = n.bare id ∧
      namesOf later = namesOf refs ∧ d.references = c.references ++ later := by
  obtain ⟨m, later, hb, hbare, hnames⟩ := body_of_value hv hjoined sign.start
  obtain ⟨e, hread, he, hmove⟩ := name_complete hsign hid ha (notNext_cons (by rw [hopen]; rfl))
  have he' : e.ahead = opens :: ([] ++ v ++ [] ++ [closes]) ++ rest := by simpa using he
  obtain ⟨d, hvalue, -, hmove'⟩ : ∃ d,
      readValue .forward name sign.start e = (.ok ⟨name, m, .value, sign.start⟩, d) ∧
        d.ahead = rest ∧
        Cursor.Moved e d (opens :: ([] ++ v ++ [] ++ [closes])) later m.depth :=
    value_complete hopen .nil hb (Node.fits_of_bare hbare hfits) .nil hclose
      (hmove.levels.trans hc) he'
  exact ⟨m, later, d, hread.trans hvalue, hbare, hnames, (hmove'.afterQuiet hmove).references⟩

/-! ## Joined names as bodies -/

/-- What is behind a body must be the closing parenthesis. -/
theorem readValue_of_refused (h : c.kind = .leftParen)
    (hfirst : c.advance.skipGap.kind ≠ .rightParen)
    (hbody : readBody .forward l c.advance.skipGap = (.ok n, e))
    (hclose : e.skipGap.kind ≠ .rightParen) :
    readValue .forward name l c = (.error (e.skipGap.unexpected [.rightParen]), e.skipGap) := by
  have hnot : e.skipGap.kind ∉ [Token.Kind.rightParen] := mt List.mem_singleton.mp hclose
  rw [readValue, Reading.kind_bind, if_pos h, Reading.advance_bind, Reading.skipGap_bind,
    Reading.kind_bind, if_neg hfirst, Reading.bind_of_ok hbody, Reading.skipGap_bind,
    Reading.expect_bind_of_not_mem hnot]

/-- The kinds of tokens that join names are none of those that a body can go on
with. -/
theorem joinsId_apart : ∀ k : Token.Kind, k.joinsId = true →
    k.isGap = false ∧ k ≠ .colon ∧ k ≠ .rightParen := by
  intro k hk
  cases k <;> simp_all [Token.Kind.joinsId, Token.Kind.isGap, Token.Kind.isTrivia]

/-- A body that begins with an identifier ends with it if no colon comes next. -/
theorem readBody_of_name (place : Location) (hname : t.content = .identifier)
    (hu : u.kind.joinsId = true) (ha : c.ahead = t :: u :: rest) :
    ∃ d, readBody .forward place c = (.ok (meaning t.lexeme place), d) ∧ d.ahead = u :: rest := by
  obtain ⟨hgap, hcolon, -⟩ := joinsId_apart u.kind hu
  obtain ⟨-, ha'⟩ := moved_skipGap_of .nil
    (Cursor.advance_ahead_of ha (Token.ne_eof_of_content hname)) (notNext_cons hgap)
  obtain ⟨d, hresolve, hd, -⟩ := reads_alone_name place t.lexeme c.advance.skipGap
  refine ⟨d, ?_, hd.trans ha'⟩
  have hnot : c.advance.skipGap.kind ≠ .colon := by rwa [Cursor.kind_of_ahead ha']
  rw [readBody_of_identifier (Cursor.current_of_ahead ha ▸ hname), readKeyed_apply, if_neg hnot,
    Cursor.current_of_ahead ha, hresolve]

/-- A trait with a joined name in its parentheses is refused at the first sign of the
name. -/
theorem read_of_joined (hsign : sign.kind = .at) (hid : Id w name) (hopen : opens.kind = .leftParen)
    (hname : t.content = .identifier) (hu : u.kind.joinsId = true)
    (ha : c.ahead = sign :: (w ++ opens :: t :: u :: rest)) :
    ∃ d, read .forward c = (.error ⟨.unexpected u [.rightParen], u.start⟩, d) := by
  obtain ⟨hgap, -, hparen⟩ := joinsId_apart u.kind hu
  have htname : t.kind = .identifier := Token.kind_eq_identifier.mpr hname
  obtain ⟨e, hread, he, -⟩ := name_complete hsign hid ha (notNext_cons (by rw [hopen]; rfl))
  obtain ⟨-, he'⟩ := moved_skipGap_of .nil
    (Cursor.advance_ahead_of he (by rw [hopen]; decide)) (notNext_cons (by rw [htname]; rfl))
  obtain ⟨d, hbody, hd⟩ := readBody_of_name sign.start hname hu he'
  obtain ⟨-, hd'⟩ := moved_skipGap_of .nil hd (notNext_cons hgap)
  have hfirst : e.advance.skipGap.kind ≠ .rightParen := by
    rw [Cursor.kind_of_ahead he', htname]
    decide
  have hclose : d.skipGap.kind ≠ .rightParen := by rwa [Cursor.kind_of_ahead hd']
  have hjoins : d.skipGap.kind.joinsId = true := by rwa [Cursor.kind_of_ahead hd']
  refine ⟨d.skipGap, ?_⟩
  rw [hread, readValue_of_refused ((Cursor.kind_of_ahead he).trans hopen) hfirst hbody hclose,
    Cursor.unexpected_of_joinsId hjoins, Cursor.current_of_ahead hd', Cursor.location_of_ahead hd']

/-! ## The laws -/

/-- A value that is read up to a closing parenthesis stands in a trait by itself: the
trait has it up to locations and leaves the same names for later. Only a joined
name does not: there the trait is refused at the second token of the name. -/
theorem every_value_but_a_joined_name_is_a_body {more : List Token} {limit : Nat}
    (hsign : sign.kind = .at)
    (hid : Id w name) (hopen : opens.kind = .leftParen) (hclose : closes.kind = .rightParen)
    (hread : Node.read .forward none (.ofTokens (v ++ closes :: more) limit) = (.ok n, d))
    (hstop : d.passed = v.reverse) (rest : List Token) :
    let found := read .forward (.ofTokens (sign :: (w ++ opens :: (v ++ closes :: rest))) limit)
    (¬IsJoined v → ∃ m e, found = (.ok ⟨name, m, .value, sign.start⟩, e) ∧ m.bare id = n.bare id ∧
      namesOf e.references = namesOf d.references) ∧
    (IsJoined v → ∃ second e, v[1]? = some second ∧
      found = (.error ⟨.unexpected second [.rightParen], second.start⟩, e)) := by
  intro found
  obtain ⟨x, refs, ⟨hv, hfits⟩, hmove⟩ := (Node.reads_value limit).sound rfl hread
  have hx : x = v := List.reverse_inj.mp
    ((List.append_nil _).symm.trans (hmove.passed.symm.trans hstop))
  have hrefs : d.references = refs := hmove.references.trans (List.nil_append refs)
  subst hx
  -- An end may be added far behind, but all up to the parenthesis stays as it is.
  have hsplit : sign :: (w ++ opens :: (x ++ closes :: rest)) =
      sign :: (w ++ opens :: x) ++ closes :: rest := by
    simp
  obtain ⟨behind, ha⟩ := Cursor.ofTokens_ahead (t := closes) (sign :: (w ++ opens :: x)) rest limit
  rw [← hsplit] at ha
  simp only [List.cons_append, List.append_assoc] at ha
  constructor
  · intro hjoined
    obtain ⟨m, later, e, hfound, hbare, hnames, hlater⟩ :=
      read_of_value hsign hid hopen hclose hv hfits hjoined rfl ha
    exact ⟨m, e, hfound, hbare, by rw [hlater, hrefs]; exact hnames⟩
  · intro hjoined
    obtain ⟨t, u, y, rfl, hname, hu⟩ := hjoined.parts
    obtain ⟨e, hfound⟩ := read_of_joined hsign hid hopen hname hu ha
    exact ⟨u, e, rfl, hfound⟩

/-- The number in `@t(1)` is read, and `@t(a.b)` is refused at the dot. -/
theorem a_number_is_a_body_and_a_dotted_name_is_none :
    let at0 : Location := .nowhere
    let sign : Token := ⟨.at, utf8 "@", at0, at0⟩
    let t : Token := ⟨.identifier, utf8 "t", at0, at0⟩
    let opens : Token := ⟨.leftParen, utf8 "(", at0, at0⟩
    let one : Token := ⟨.number (.int64 1), utf8 "1", at0, at0⟩
    let a : Token := ⟨.identifier, utf8 "a", at0, at0⟩
    let dot : Token := ⟨.dot, utf8 ".", at0, at0⟩
    let b : Token := ⟨.identifier, utf8 "b", at0, at0⟩
    let closes : Token := ⟨.rightParen, utf8 ")", at0, at0⟩
    (∃ m e, read .forward (.ofTokens [sign, t, opens, one, closes] 0) =
        (.ok ⟨utf8 "t", m, .value, at0⟩, e) ∧ m.bare id = .number at0 (.int64 1) ∧
      namesOf e.references = []) ∧
    ∃ e, read .forward (.ofTokens [sign, t, opens, a, dot, b, closes] 0) =
      (.error ⟨.unexpected dot [.rightParen], at0⟩, e) := by
  intro at0 sign t opens one a dot b closes
  have hname (t : Token) (h : t.kind = .identifier) : Id [t] t.lexeme := by
    have hid := Id.mk (w := []) (x := []) (y := []) h .nil .absent .absent
    simpa using hid
  have hdotted : Id [a, dot, b] (utf8 "a.b") :=
    .mk (x := []) (y := []) (b := []) (d := []) rfl (.cons rfl rfl .nil) .absent .absent
  have hread : Node.read .forward none (.ofTokens ([one] ++ closes :: []) 0) =
      (.ok (.number at0 (.int64 1)), _) := rfl
  have hview :
      (Node.read .forward none (.ofTokens ([a, dot, b] ++ closes :: []) 0)).1.toOption.map id =
      some (.string at0 (utf8 "a.b")) := by cbv
  obtain ⟨_, hjoined, -⟩ := Reading.ok_of_view hview
  have hsign : sign.kind = .at := rfl
  have hopen : opens.kind = .leftParen := rfl
  have hclose : closes.kind = .rightParen := rfl
  have hone := every_value_but_a_joined_name_is_a_body hsign (hname t rfl) hopen hclose hread rfl []
  have htwo := every_value_but_a_joined_name_is_a_body hsign (hname t rfl) hopen hclose hjoined
    (by decide +kernel) []
  obtain ⟨second, e', hsecond, hrefused⟩ := htwo.2 ⟨by decide, _, hdotted⟩
  cases hsecond
  exact ⟨hone.1 fun h => absurd h.1 (by decide), e', hrefused⟩

/-- The text `a.b` is a value before a closing parenthesis, but it is refused in the
parentheses of a trait. -/
theorem a_dotted_name_is_a_value_and_no_body :
    let alone := Node.read .forward none (.ofTokens (Source.mk [] (utf8 "a.b)")).tokens 64)
    let found := read .forward (.ofTokens (Source.mk [] (utf8 "@t(a.b)")).tokens 64)
    alone.1.toOption.map (Node.bare id) = some (.string .nowhere (utf8 "a.b")) ∧
      alone.2.kind = .rightParen ∧ found.1.isOk = false := by
  refine ⟨by cbv, by decide +kernel, by decide +kernel⟩

end Trait

end ShapeTraits
