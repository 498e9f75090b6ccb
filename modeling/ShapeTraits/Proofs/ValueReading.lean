-- The reader of values reads exactly the grammar of values: ids first, then
-- members and items, then whole values by induction on the levels that are left.
import ShapeTraits.Proofs.Reads

namespace ShapeTraits

open Cursor Grammar

/-! ## Ids -/

namespace ShapeId

variable {c d : Cursor} {a b sign text : Bytes} {kind : Token.Kind} {w rest : List Token}

theorem name_eq_ok : name a c = (.ok b, d) ↔
    c.kind = .identifier ∧ b = a ++ c.current.lexeme ∧ d = c.advance := by
  rw [name, Reading.expect_bind_eq_ok, List.mem_singleton]
  refine and_congr_right fun _ => ?_
  rw [Reading.current_bind, Reading.advance_bind, Reading.pure_apply, Prod.mk.injEq,
    Except.ok.injEq, eq_comm, eq_comm (a := c.advance)]

theorem part_of_ne (sign : Bytes) (h : c.kind ≠ kind) : part kind sign a c = (.ok a, c) := by
  rw [part, Reading.kind_bind, if_neg h]
  rfl

/-- Behind its sign, a part is a name. -/
theorem part_sound_of_eq (heof : kind ≠ .eof) (h : c.kind = kind)
    (hread : part kind sign a c = (.ok b, d)) :
    ∃ mark name, mark.kind = kind ∧ name.kind = .identifier ∧ b = a ++ (sign ++ name.lexeme) ∧
      Moved c d [mark, name] [] 0 := by
  rw [part, Reading.kind_bind, if_pos h, Reading.advance_bind, name_eq_ok] at hread
  obtain ⟨hname, rfl, rfl⟩ := hread
  have hmark : c.kind ≠ .eof := by rw [h]; exact heof
  have hne : c.advance.kind ≠ .eof := by rw [hname]; decide
  refine ⟨c.current, c.advance.current, h, hname, List.append_assoc _ _ _, ?_⟩
  exact (moved_advance hmark).thenQuiet (moved_advance hne)

theorem part_complete_of_eq {mark name : Token} (sign : Bytes) (heof : kind ≠ .eof)
    (hmark : mark.kind = kind)
    (hname : name.kind = .identifier) (ha : c.ahead = mark :: name :: rest) :
    ∃ d, part kind sign a c = (.ok (a ++ (sign ++ name.lexeme)), d) ∧ d.ahead = rest ∧
      Moved c d [mark, name] [] 0 := by
  have hmove := moved_advance_of_ahead ha (by rw [hmark]; exact heof)
  have ha' := advance_ahead_of ha (by rw [hmark]; exact heof)
  have hmove' := moved_advance_of_ahead ha' (by rw [hname]; decide)
  refine ⟨c.advance.advance, ?_, advance_ahead_of ha' (by rw [hname]; decide),
    hmove.thenQuiet hmove'⟩
  rw [part, Reading.kind_bind, if_pos ((kind_of_ahead ha).trans hmark), Reading.advance_bind,
    name_eq_ok]
  exact ⟨(kind_of_ahead ha').trans hname, by rw [current_of_ahead ha', List.append_assoc], rfl⟩

theorem part_sound (heof : kind ≠ .eof) (hread : part kind sign a c = (.ok b, d)) :
    ∃ w text, Part kind sign w text ∧ b = a ++ text ∧ Moved c d w [] 0 := by
  by_cases h : c.kind = kind
  · obtain ⟨mark, name, hmark, hname, hb, hmove⟩ := part_sound_of_eq heof h hread
    exact ⟨_, _, .present hmark hname, hb, hmove⟩
  · rw [part_of_ne sign h] at hread
    obtain ⟨h1, rfl⟩ := Prod.mk.inj hread
    cases h1
    exact ⟨[], [], .absent, (List.append_nil a).symm, .refl c⟩

theorem part_complete (heof : kind ≠ .eof) (h : Part kind sign w text) (ha : c.ahead = w ++ rest)
    (hrest : NotNext (· == kind) rest) :
    ∃ d, part kind sign a c = (.ok (a ++ text), d) ∧ d.ahead = rest ∧ Moved c d w [] 0 := by
  cases h with
  | absent =>
    rw [List.nil_append] at ha
    have hk :=
      (ha.symm ▸ hrest : NotNext (· == kind) c.ahead).kind (beq_eq_false_iff_ne.mpr heof.symm)
    rw [List.append_nil]
    exact ⟨c, part_of_ne sign (beq_eq_false_iff_ne.mp hk), ha, .refl c⟩
  | present hmark hname => exact part_complete_of_eq sign heof hmark hname ha

theorem notNext_part {bad : Token.Kind → Bool} (h : Part kind sign w text) (hk : bad kind = false)
    (hrest : NotNext bad rest) : NotNext bad (w ++ rest) := by
  cases h with
  | absent => exact hrest
  | present hmark _ => exact notNext_cons (hmark ▸ hk)

/-- The loop over dots reads the names behind them. -/
theorem segments_sound
    (hread : Reading.untilKind (· != .dot) (part .dot (utf8 ".")) a c = (.ok b, d)) :
    ∃ w text, Segments w text ∧ b = a ++ text ∧ Moved c d w [] 0 := by
  induction hn : c.ahead.length using Nat.strongRecOn generalizing a c with
  | ind n ih =>
    subst hn
    by_cases hdot : c.kind = .dot
    · have hprogress {a' : Bytes} {e : Cursor} (hs : part .dot (utf8 ".") a c = (.ok a', e)) :
          e.ahead.length < c.ahead.length := by
        obtain ⟨mark, name, -, -, -, hmove⟩ := part_sound_of_eq (by decide) hdot hs
        exact hmove.ahead_lt (List.cons_ne_nil _ _)
      obtain ⟨a', e, hs, hlt, hmore⟩ := Reading.untilKind_more (by rw [hdot]; rfl) hprogress hread
      obtain ⟨mark, name, hmark, hname, rfl, hmove⟩ := part_sound_of_eq (by decide) hdot hs
      obtain ⟨w, text, hw, rfl, hmove'⟩ := ih _ hlt hmore rfl
      exact ⟨_, _, .cons hmark hname hw, List.append_assoc _ _ _, hmove.thenQuiet hmove'⟩
    · have hstop : (c.kind != .dot) = true := bne_iff_ne.mpr hdot
      rw [Reading.untilKind_stop (p := (· != .dot)) hstop] at hread
      obtain ⟨h1, rfl⟩ := Prod.mk.inj hread
      cases h1
      exact ⟨[], [], .nil, (List.append_nil _).symm, .refl c⟩

theorem segments_complete (h : Segments w text) (ha : c.ahead = w ++ rest)
    (hrest : NotNext (· == .dot) rest) :
    ∃ d, Reading.untilKind (· != .dot) (part .dot (utf8 ".")) a c = (.ok (a ++ text), d) ∧
      d.ahead = rest ∧ Moved c d w [] 0 := by
  induction h generalizing a c with
  | nil =>
    rw [List.nil_append] at ha
    have hk := (ha.symm ▸ hrest : NotNext (· == .dot) c.ahead).kind rfl
    refine ⟨c, ?_, ha, .refl c⟩
    rw [List.append_nil]
    exact Reading.untilKind_stop (by rw [bne, hk]; rfl)
  | @cons dot name w text hdot hname hw ih =>
    obtain ⟨d, hs, hd, hmove⟩ := part_complete_of_eq (a := a) (utf8 ".") (by decide) hdot hname ha
    obtain ⟨e, hmore, he, hmove'⟩ := ih (a := a ++ (utf8 "." ++ name.lexeme)) hd
    have hk : (c.kind != .dot) = false := by rw [kind_of_ahead ha, hdot]; rfl
    refine ⟨e, ?_, he, hmove.thenQuiet hmove'⟩
    rw [Reading.untilKind_step hk hs (hmove.ahead_lt (List.cons_ne_nil _ _)), hmore,
      List.append_assoc]

/-- An id is read up to the first token that does not go on with it. -/
theorem reads_id (levels : Nat) :
    Reads levels read (fun w text refs => Id w text ∧ refs = []) (fun _ => 0)
      Token.Kind.joinsId where
  sound := by
    intro c d id _ hread
    obtain ⟨first, e, hfirst, hread⟩ := Reading.bind_eq_ok.mp hread
    obtain ⟨hname, rfl, rfl⟩ := name_eq_ok.mp hfirst
    obtain ⟨segments, f, hsegments, hread⟩ := Reading.bind_eq_ok.mp hread
    obtain ⟨w, text, hw, rfl, hmove⟩ := segments_sound hsegments
    obtain ⟨shape, f', hshape, hread⟩ := Reading.bind_eq_ok.mp hread
    obtain ⟨x, text', hx, rfl, hmove'⟩ := part_sound (by decide) hshape
    obtain ⟨y, text'', hy, rfl, hmove''⟩ := part_sound (by decide) hread
    have hmoved := (moved_advance (by rw [hname]; decide)).thenQuiet
      ((hmove.thenQuiet hmove').thenQuiet hmove'')
    exact ⟨_, [], ⟨.mk hname hw hx hy, rfl⟩, hmoved⟩
  complete := by
    rintro c w id refs rest - ⟨hid, rfl⟩ ha hrest
    cases hid with
    | @mk first w x y text shape member hname hw hx hy =>
      have hdot : NotNext (· == .dot) (x ++ (y ++ rest)) :=
        notNext_part hx rfl (notNext_part hy rfl (hrest.imp (by decide)))
      have hpound : NotNext (· == .pound) (y ++ rest) :=
        notNext_part hy rfl (hrest.imp (by decide))
      rw [List.cons_append, List.append_assoc, List.append_assoc] at ha
      have hmove := moved_advance_of_ahead ha (by rw [hname]; decide)
      have hfirst : name [] c = (.ok first.lexeme, c.advance) :=
        name_eq_ok.mpr ⟨(kind_of_ahead ha).trans hname, by rw [current_of_ahead ha]; rfl, rfl⟩
      obtain ⟨d, hsegments, hd, hmove1⟩ := segments_complete (a := first.lexeme) hw
        (advance_ahead_of ha (by rw [hname]; decide)) hdot
      obtain ⟨e, hshape, he, hmove2⟩ :=
        part_complete (a := first.lexeme ++ text) (by decide) hx hd hpound
      obtain ⟨f, hmember, hf, hmove3⟩ :=
        part_complete (a := first.lexeme ++ text ++ shape) (by decide) hy he (hrest.imp (by decide))
      refine ⟨f, ?_, hf, hmove.thenQuiet ((hmove1.thenQuiet hmove2).thenQuiet hmove3)⟩
      rw [read, Reading.bind_of_ok hfirst, Reading.bind_of_ok hsegments, Reading.bind_of_ok hshape,
        hmember]

end ShapeId

/-! ## Members -/

theorem KeyedList.insert?_eq_some {α : Type} {m m' : KeyedList α} {key : Bytes} {l : Location}
    {value : α} : m.insert? key l value = some m' ↔
      key ∉ m.entries.map (·.key) ∧ m' = ⟨m.entries ++ [⟨key, l, value⟩]⟩ := by
  have hcontains : m.contains key = true ↔ key ∈ m.entries.map (·.key) := by
    simp [contains, find?]
  rw [insert?]
  by_cases h : key ∈ m.entries.map (·.key)
  · rw [if_pos (hcontains.mpr h)]
    exact ⟨fun hn => (nomatch hn), fun hn => absurd h hn.1⟩
  · rw [if_neg fun hn => h (hcontains.mp hn), Option.some.injEq, eq_comm]
    exact ⟨fun hn => ⟨h, hn⟩, fun hn => hn.2⟩

/-- A key more leaves the keys distinct exactly if it is new. -/
theorem nodup_keys_append {entries : List (Entry Node)} (e : Entry Node) :
    ((entries ++ [e]).map (·.key)).Nodup ↔
      (entries.map (·.key)).Nodup ∧ e.key ∉ entries.map (·.key) := by
  rw [List.map_append, List.nodup_append]
  constructor
  · rintro ⟨hentries, -, hdisjoint⟩
    exact ⟨hentries, fun hk => hdisjoint _ hk _ (List.mem_singleton_self _) rfl⟩
  · rintro ⟨hentries, hnew⟩
    refine ⟨hentries, List.nodup_cons.mpr ⟨List.not_mem_nil, List.nodup_nil⟩, ?_⟩
    intro a ha b hb hab
    rw [List.map_singleton, List.mem_singleton] at hb
    exact hnew (hb ▸ hab ▸ ha)

namespace Member

variable {c d : Cursor} {expected : List Token.Kind} {owner : MemberOwner} {g h rest : List Token}
  {t : Token} {levels : Nat} {value : Reading Node} {V : Form Node}

theorem key_eq_ok {k : Bytes × Location} :
    key expected c = (.ok k, d) ↔ Key c.current k.1 ∧ k.2 = c.current.start ∧ d = c := by
  rw [key, Reading.current_bind]
  obtain ⟨name, l⟩ := k
  constructor
  · intro hread
    cases hcontent : c.current.content with
    | string text =>
      rw [hcontent] at hread
      cases hread
      exact ⟨.string hcontent, rfl, rfl⟩
    | identifier =>
      rw [hcontent] at hread
      cases hread
      exact ⟨.name hcontent, rfl, rfl⟩
    | _ =>
      rw [hcontent] at hread
      cases hread
  · rintro ⟨hkey, rfl, rfl⟩
    cases hkey with
    | name hcontent => rw [hcontent]; rfl
    | string hcontent => rw [hcontent]; rfl

theorem colon_sound (hread : colon c = (.ok (), d)) :
    ∃ g t h, Gap g ∧ t.kind = .colon ∧ Gap h ∧ Moved c d (g ++ t :: h) [] 0 := by
  rw [colon, Reading.skipGap_bind, Reading.expect_bind_eq_ok, Reading.advance_bind,
    List.mem_singleton] at hread
  obtain ⟨hcolon, hread⟩ := hread
  cases hread
  have hmove : Moved c.skipGap c.skipGap.advance [c.skipGap.current] [] 0 :=
    moved_advance (by rw [hcolon]; decide)
  exact ⟨_, _, _, gap_ahead c, hcolon, gap_ahead c.skipGap.advance,
    (moved_skipGap c).thenQuiet (hmove.thenQuiet (moved_skipGap _))⟩

theorem colon_complete (hg : Gap g) (ht : t.kind = .colon) (hh : Gap h)
    (ha : c.ahead = g ++ t :: (h ++ rest)) (hrest : NotNext Token.Kind.isGap rest) :
    ∃ d, colon c = (.ok (), d) ∧ d.ahead = rest ∧ Moved c d (g ++ t :: h) [] 0 := by
  obtain ⟨hmove, ha1⟩ := moved_skipGap_of hg ha (notNext_cons (by rw [ht]; rfl))
  have hne : t.kind ≠ .eof := by rw [ht]; decide
  obtain ⟨hmove', ha2⟩ := moved_skipGap_of hh (advance_ahead_of ha1 hne) hrest
  refine ⟨_, ?_, ha2, hmove.thenQuiet ((moved_advance_of_ahead ha1 hne).thenQuiet hmove')⟩
  rw [colon, Reading.skipGap_bind, Reading.expect_bind_eq_ok, List.mem_singleton,
    kind_of_ahead ha1]
  exact ⟨ht, rfl⟩

/-- One more member is read if its key is new. -/
theorem reads_member (owner : MemberOwner) (expected : List Token.Kind)
    (hvalue : Reads levels value V Node.depth Token.Kind.joinsId)
    (hV : ∀ v n r, V v n r → Begins Node.firstKinds v) :
    ReadsNext levels (read owner expected value) KeyedList.entries
      (fun es => (es.map (·.key)).Nodup) (Grammar.Member V) (fun e => e.value.depth)
      Token.Kind.joinsId where
  sound := by
    intro m m' e d hc hread
    obtain ⟨⟨k, l⟩, c, hkey, hread⟩ := Reading.bind_eq_ok.mp hread
    obtain ⟨hkey, hl, he⟩ := key_eq_ok.mp hkey
    subst he
    cases hl
    have hmove := moved_advance (c := c) hkey.ne_eof
    dsimp only at hread
    rw [Reading.advance_bind] at hread
    obtain ⟨⟨⟩, e, hcolon, hread⟩ := Reading.bind_eq_ok.mp hread
    obtain ⟨g, t, h, hg, ht, hh, hmove1⟩ := colon_sound hcolon
    obtain ⟨n, f, hn, hread⟩ := Reading.bind_eq_ok.mp hread
    obtain ⟨v, refs, hv, hmove2⟩ :=
      hvalue.sound (hmove1.levels.trans (hmove.levels.trans hc)) hn
    cases hinsert : m.insert? k c.current.start n with
    | none =>
      rw [hinsert] at hread
      cases hread
    | some inserted =>
      rw [hinsert] at hread
      obtain ⟨hnew, rfl⟩ := KeyedList.insert?_eq_some.mp hinsert
      cases hread
      refine ⟨⟨k, c.current.start, n⟩, _, _, refs, .mk hkey hg ht hh hv, gap_ahead f, rfl,
        fun hfit => (nodup_keys_append _).mpr ⟨hfit, hnew⟩, ?_⟩
      have hmoved := (hmove2.thenQuiet (moved_skipGap f)).afterQuiet (hmove.thenQuiet hmove1)
      simpa using hmoved
  complete := by
    intro m c v e refs g rest hc hm hg hfit ha hnext hgap
    cases hm with
    | @mk t colon g1 g2 v k n _ hkey hg1 hcolon hg2 hv =>
      have hnew : k ∉ m.entries.map (·.key) := ((nodup_keys_append _).mp hfit).2
      rw [List.cons_append, List.append_assoc, List.cons_append, List.append_assoc] at ha
      have hkeyread : key expected c = (.ok (k, t.start), c) := by
        rw [key_eq_ok, current_of_ahead ha]
        exact ⟨hkey, rfl, rfl⟩
      have hmove := moved_advance_of_ahead ha hkey.ne_eof
      obtain ⟨d, hcolonread, hd, hmove1⟩ := colon_complete hg1 hcolon hg2
        (advance_ahead_of ha hkey.ne_eof) ((hV _ _ _ hv).notNext (by decide))
      obtain ⟨e, hvread, he, hmove2⟩ :=
        hvalue.complete (hmove1.levels.trans (hmove.levels.trans hc))
        hv hd (notNext_gap hg (by decide) hnext)
      obtain ⟨hmove3, hf⟩ := moved_skipGap_of hg he hgap
      refine ⟨⟨m.entries ++ [⟨k, t.start, n⟩]⟩, e.skipGap, ?_, rfl, hf, ?_⟩
      · rw [read, Reading.bind_of_ok hkeyread]
        dsimp only
        rw [Reading.advance_bind, Reading.bind_of_ok hcolonread, Reading.bind_of_ok hvread,
          KeyedList.insert?_eq_some.mpr ⟨hnew, rfl⟩]
        rfl
      · have hmoved := (hmove2.thenQuiet hmove3).afterQuiet (hmove.thenQuiet hmove1)
        simpa using hmoved

end Member

/-! ## Objects and arrays -/

namespace Node

variable {c d : Cursor} {levels : Nat} {value : Reading Node} {V : Form Node} {n : Node}
  {l r : Token} {g w rest : List Token} {refs : List Reference}

theorem object_sound (hvalue : Reads levels value V depth Token.Kind.joinsId)
    (hV : ∀ v n r, V v n r → Begins firstKinds v) (hc : c.limit - c.depth = levels)
    (hopen : c.kind ≠ .eof) (hread : readObject value c = (.ok n, d)) :
    ∃ g w r entries refs, Gap g ∧ Many (Grammar.Member V) w entries refs ∧ r.kind = .rightBrace ∧
      n = .object c.current.start ⟨entries⟩ ∧ (entries.map (·.key)).Nodup ∧
      Moved c d (c.current :: (g ++ w ++ [r])) refs (largest (fun e => e.value.depth) entries) := by
  rw [readObject, Reading.location_bind, Reading.advance_bind, Reading.skipGap_bind] at hread
  obtain ⟨⟨entries⟩, e, hloop, hread⟩ := Reading.bind_eq_ok.mp hread
  cases hread
  obtain ⟨hstop, g, es, w, refs, hg, hm, hview, hfit, hmove⟩ :=
    (Member.reads_member _ _ hvalue hV).sound_enclosed (fun _ _ _ => Grammar.Member.begins) hc hopen
      hloop (fun hk => by rw [beq_iff_eq.mp hk]; decide)
  cases hview
  exact ⟨g, w, e.current, _, refs, hg, hm, beq_iff_eq.mp hstop, rfl, hfit List.nodup_nil, hmove⟩

theorem object_complete (hvalue : Reads levels value V depth Token.Kind.joinsId)
    (hV : ∀ v n r, V v n r → Begins firstKinds v) (hc : c.limit - c.depth = levels)
    {entries : List (Entry Node)} (hopen : l.kind ≠ .eof) (hg : Gap g)
    (hm : Many (Grammar.Member V) w entries refs) (hclose : r.kind = .rightBrace)
    (hdistinct : (entries.map (·.key)).Nodup) (ha : c.ahead = l :: (g ++ w ++ [r]) ++ rest) :
    ∃ d, readObject value c = (.ok (.object l.start ⟨entries⟩), d) ∧ d.ahead = rest ∧
      Moved c d (l :: (g ++ w ++ [r])) refs (largest (fun e => e.value.depth) entries) := by
  obtain ⟨⟨es⟩, d, hloop, hview, hk, hd, hmove⟩ :=
    (Member.reads_member .object [.identifier, .string, .rightBrace] hvalue hV).complete_enclosed
      (· == .rightBrace) (s := .empty) (fun _ _ _ => Grammar.Member.begins) (by decide)
      (fun as bs h => by rw [List.map_append] at h; exact (List.nodup_append.mp h).1) hopen
      (by rw [hclose]; decide) (by rw [hclose]; decide) (by rw [hclose]; decide)
      (by rw [hclose]; decide) hc hg hm hdistinct ha
  cases hview
  refine ⟨d.advance, ?_, hd, hmove⟩
  rw [readObject, Reading.location_bind, Reading.advance_bind, Reading.skipGap_bind,
    Reading.bind_of_ok hloop, Reading.advance_bind, Reading.pure_apply, location_of_ahead ha]

theorem array_sound (hvalue : Reads levels value V depth Token.Kind.joinsId)
    (hV : ∀ v n r, V v n r → Begins firstKinds v) (hc : c.limit - c.depth = levels)
    (hopen : c.kind ≠ .eof) (hread : readArray value c = (.ok n, d)) :
    ∃ g w r items refs, Gap g ∧ Many V w items refs ∧ r.kind = .rightBracket ∧
      n = .array c.current.start items ∧
      Moved c d (c.current :: (g ++ w ++ [r])) refs (largest depth items) := by
  rw [readArray, Reading.location_bind, Reading.advance_bind, Reading.skipGap_bind] at hread
  obtain ⟨items, e, hloop, hread⟩ := Reading.bind_eq_ok.mp hread
  cases hread
  obtain ⟨hstop, g, as, w, refs, hg, hm, hview, -, hmove⟩ :=
    (hvalue.gather (by decide)).sound_enclosed hV hc hopen hloop
      (fun hk => by rw [beq_iff_eq.mp hk]; decide)
  cases hview
  exact ⟨g, w, e.current, _, refs, hg, hm, beq_iff_eq.mp hstop, rfl, hmove⟩

theorem array_complete (hvalue : Reads levels value V depth Token.Kind.joinsId)
    (hV : ∀ v n r, V v n r → Begins firstKinds v) (hc : c.limit - c.depth = levels)
    {items : List Node} (hopen : l.kind ≠ .eof) (hg : Gap g) (hm : Many V w items refs)
    (hclose : r.kind = .rightBracket) (ha : c.ahead = l :: (g ++ w ++ [r]) ++ rest) :
    ∃ d, readArray value c = (.ok (.array l.start items), d) ∧ d.ahead = rest ∧
      Moved c d (l :: (g ++ w ++ [r])) refs (largest depth items) := by
  obtain ⟨as, d, hloop, hview, hk, hd, hmove⟩ :=
    (hvalue.gather (by decide)).complete_enclosed (· == .rightBracket) (s := []) hV (by decide)
      (fun _ _ _ => trivial) hopen (by rw [hclose]; decide) (by rw [hclose]; decide)
      (by rw [hclose]; decide) (by rw [hclose]; decide) hc hg hm trivial ha
  cases hview
  refine ⟨d.advance, ?_, hd, hmove⟩
  rw [readArray, Reading.location_bind, Reading.advance_bind, Reading.skipGap_bind]
  refine (Reading.bind_of_ok hloop).trans ?_
  rw [Reading.advance_bind, Reading.pure_apply, location_of_ahead ha]

/-! ## Whole values -/

theorem keyword?_of_mem {id : Bytes} (h : id ∈ keywords) (l : Location) :
    Resolver.keyword? id l = some (meaning id l) := by
  simp only [keywords, List.mem_cons, List.not_mem_nil, or_false] at h
  rcases h with rfl | rfl | rfl
  · rfl
  · rfl
  · rfl

theorem keyword?_of_not_mem {id : Bytes} (h : id ∉ keywords) (l : Location) :
    Resolver.keyword? id l = none ∧ meaning id l = .string l id := by
  simp only [keywords, List.mem_cons, List.not_mem_nil, or_false, not_or] at h
  obtain ⟨htrue, hfalse, hnull⟩ := h
  simp [Resolver.keyword?, meaning, htrue, hfalse, hnull]

/-- A bare name is never refused: it gets its meaning, and unless it is a
keyword it is kept for later. -/
theorem resolve_forward (id : Bytes) (l : Location) (c : Cursor) :
    ∃ d, Resolver.forward.resolve id l c = (.ok (meaning id l), d) ∧ d.ahead = c.ahead ∧
      Moved c d [] (leaves id l) 0 := by
  by_cases h : id ∈ keywords
  · refine ⟨c, ?_, rfl, ?_⟩
    · rw [Resolver.resolve, keyword?_of_mem h]
    · rw [leaves, if_pos h]
      exact .refl c
  · obtain ⟨hnone, hmeaning⟩ := keyword?_of_not_mem h l
    refine ⟨Resolver.keep (c.note (.deferred id l)) id l, ?_, rfl, ?_⟩
    · rw [Resolver.resolve, hnone, hmeaning]
    · rw [leaves, if_neg h]
      exact (moved_keep _ id l).afterQuiet (moved_note c _)

theorem meaning_flat (id : Bytes) (l : Location) :
    (meaning id l).hasDistinctKeys ∧ (meaning id l).depth = 0 := by
  unfold meaning
  repeat' split
  all_goals exact ⟨rfl, rfl⟩

section Inner

variable {inner : Reading Node} {resolver : Resolver} {given : Option Location} {text : Bytes}

theorem readWith_of_text
    (h : c.current.content = .string text ∨ c.current.content = .textBlock text) :
    readWith resolver inner given c =
      (.ok (.string (given.getD c.current.start) text), c.advance) := by
  rw [readWith, Reading.current_bind]
  rcases h with h | h <;> rw [h] <;> rfl

theorem readWith_of_number {value : Number} (h : c.current.content = .number value) :
    readWith resolver inner given c =
      (.ok (.number (given.getD c.current.start) value), c.advance) := by
  rw [readWith, Reading.current_bind, h]
  rfl

theorem readWith_of_identifier (h : c.current.content = .identifier) :
    readWith resolver inner given c =
      (ShapeId.read >>= fun id => resolver.resolve id (given.getD c.current.start)) c := by
  rw [readWith, Reading.current_bind, h]

theorem readWith_of_leftBrace (h : c.current.content = .leftBrace) :
    readWith resolver inner given c = Reading.nested (readObject inner) c := by
  rw [readWith, Reading.current_bind, h]

theorem readWith_of_leftBracket (h : c.current.content = .leftBracket) :
    readWith resolver inner given c = Reading.nested (readArray inner) c := by
  rw [readWith, Reading.current_bind, h]

/-- Only six kinds of tokens begin a value. -/
theorem readWith_eq_ok (h : readWith resolver inner given c = (.ok n, d)) :
    (∃ text, c.current.content = .string text ∨ c.current.content = .textBlock text) ∨
      (∃ value, c.current.content = .number value) ∨ c.current.content = .identifier ∨
      c.current.content = .leftBrace ∨ c.current.content = .leftBracket := by
  rw [readWith, Reading.current_bind] at h
  cases hcontent : c.current.content with
  | string text => exact .inl ⟨text, .inl rfl⟩
  | textBlock text => exact .inl ⟨text, .inr rfl⟩
  | number value => exact .inr (.inl ⟨value, rfl⟩)
  | identifier => exact .inr (.inr (.inl rfl))
  | leftBrace => exact .inr (.inr (.inr (.inl rfl)))
  | leftBracket => exact .inr (.inr (.inr (.inr rfl)))
  | _ =>
    rw [hcontent] at h
    cases h

/-! ## One more level -/

/-- What is inside is read with one level less. -/
def ReadsInside (levels : Nat) (inner : Reading Node) : Prop :=
  ∀ k, levels = k + 1 → Reads k inner (ValueWithin k) depth Token.Kind.joinsId

theorem begins_within {k : Nat} (v : List Token) (n : Node) (refs : List Reference)
    (h : ValueWithin k v n refs) : Begins firstKinds v := h.1.begins

theorem levels_enter {k : Nat} (h : c.limit - c.depth = k + 1) :
    c.enter.limit - c.enter.depth = k := by
  simp only [enter]
  omega

/-- An object is read exactly if its members are read one level further down. -/
theorem nested_object_sound (hinner : ReadsInside levels inner) (hc : c.limit - c.depth = levels)
    (hopen : c.current.kind = .leftBrace)
    (hread : Reading.nested (readObject inner) c = (.ok n, d)) :
    ∃ w refs, ValueWithin levels w n refs ∧ Moved c d w refs n.depth := by
  obtain ⟨hlt, e, hinside, rfl⟩ := Reading.nested_eq_ok.mp hread
  obtain ⟨k, rfl⟩ : ∃ k, levels = k + 1 := ⟨levels - 1, by omega⟩
  have hne : c.current.kind ≠ .eof := by rw [hopen]; decide
  obtain ⟨g, w, r, entries, refs, hg, hm, hclose, rfl, hkeys, hmove⟩ :=
    object_sound (c := c.enter) (hinner k rfl) begins_within (levels_enter hc)
      hne hinside
  obtain ⟨hm, hfits⟩ := many_memberWithin.mp hm
  refine ⟨_, refs, ⟨.object hopen hg hm hclose, fits_object.mpr ⟨hkeys, k, rfl, hfits⟩⟩, ?_⟩
  rw [depth_object]
  exact hmove.leave

theorem nested_array_sound (hinner : ReadsInside levels inner) (hc : c.limit - c.depth = levels)
    (hopen : c.current.kind = .leftBracket)
    (hread : Reading.nested (readArray inner) c = (.ok n, d)) :
    ∃ w refs, ValueWithin levels w n refs ∧ Moved c d w refs n.depth := by
  obtain ⟨hlt, e, hinside, rfl⟩ := Reading.nested_eq_ok.mp hread
  obtain ⟨k, rfl⟩ : ∃ k, levels = k + 1 := ⟨levels - 1, by omega⟩
  have hne : c.current.kind ≠ .eof := by rw [hopen]; decide
  obtain ⟨g, w, r, items, refs, hg, hm, hclose, rfl, hmove⟩ :=
    array_sound (c := c.enter) (hinner k rfl) begins_within (levels_enter hc)
      hne hinside
  obtain ⟨hm, hfits⟩ := many_valueWithin.mp hm
  refine ⟨_, refs, ⟨.array hopen hg hm hclose, fits_array.mpr ⟨k, rfl, hfits⟩⟩, ?_⟩
  rw [depth_array]
  exact hmove.leave

theorem nested_object_complete {l r : Token} {g w rest : List Token} {entries : List (Entry Node)}
    {refs : List Reference} (hinner : ReadsInside levels inner) (hc : c.limit - c.depth = levels)
    (hopen : l.kind = .leftBrace) (hg : Gap g) (hm : Many (Grammar.Member Value) w entries refs)
    (hclose : r.kind = .rightBrace) (hfits : (object l.start ⟨entries⟩).Fits levels)
    (ha : c.ahead = l :: (g ++ w ++ [r]) ++ rest) :
    ∃ d, Reading.nested (readObject inner) c = (.ok (object l.start ⟨entries⟩), d) ∧
      d.ahead = rest ∧ Moved c d (l :: (g ++ w ++ [r])) refs (object l.start ⟨entries⟩).depth := by
  obtain ⟨hkeys, k, rfl, hinside⟩ := fits_object.mp hfits
  obtain ⟨d, hread, hd, hmove⟩ := object_complete (c := c.enter) (hinner k rfl) begins_within
    (levels_enter hc) (by rw [hopen]; decide) hg
      (many_memberWithin.mpr ⟨hm, hinside⟩) hclose hkeys ha
  refine ⟨d.leave, Reading.nested_eq_ok.mpr ⟨by omega, d, hread, rfl⟩, hd, ?_⟩
  rw [depth_object]
  exact hmove.leave

theorem nested_array_complete {l r : Token} {g w rest : List Token} {items : List Node}
    {refs : List Reference} (hinner : ReadsInside levels inner) (hc : c.limit - c.depth = levels)
    (hopen : l.kind = .leftBracket) (hg : Gap g) (hm : Many Value w items refs)
    (hclose : r.kind = .rightBracket) (hfits : (array l.start items).Fits levels)
    (ha : c.ahead = l :: (g ++ w ++ [r]) ++ rest) :
    ∃ d, Reading.nested (readArray inner) c = (.ok (array l.start items), d) ∧
      d.ahead = rest ∧ Moved c d (l :: (g ++ w ++ [r])) refs (array l.start items).depth := by
  obtain ⟨k, rfl, hinside⟩ := fits_array.mp hfits
  obtain ⟨d, hread, hd, hmove⟩ := array_complete (c := c.enter) (hinner k rfl) begins_within
    (levels_enter hc) (by rw [hopen]; decide) hg (many_valueWithin.mpr ⟨hm, hinside⟩) hclose ha
  refine ⟨d.leave, Reading.nested_eq_ok.mpr ⟨by omega, d, hread, rfl⟩, hd, ?_⟩
  rw [depth_array]
  exact hmove.leave

/-! ## Ids as values -/

theorem id_sound (hc : c.limit - c.depth = levels)
    (hread : (ShapeId.read >>= fun id => Resolver.forward.resolve id c.current.start) c =
      (.ok n, d)) :
    ∃ w refs, ValueWithin levels w n refs ∧ Moved c d w refs n.depth := by
  obtain ⟨id, e, hid, hread⟩ := Reading.bind_eq_ok.mp hread
  obtain ⟨w, _, ⟨hw, rfl⟩, hmove⟩ := (ShapeId.reads_id levels).sound hc hid
  obtain ⟨f, hresolve, -, hmove'⟩ := resolve_forward id c.current.start e
  cases hresolve.symm.trans hread
  obtain ⟨t, u, rfl, -⟩ := hw.begins
  rw [current_of_ahead hmove.ahead] at hmove' ⊢
  refine ⟨t :: u, _, ⟨.id hw, fits_of_flat (meaning_flat id t.start)⟩, ?_⟩
  rw [(meaning_flat id t.start).2]
  simpa using hmove.trans hmove'

theorem id_complete {t : Token} {w rest : List Token} (hc : c.limit - c.depth = levels)
    (hid : Id (t :: w) text) (ha : c.ahead = t :: w ++ rest)
    (hrest : NotNext Token.Kind.joinsId rest) :
    ∃ d, (ShapeId.read >>= fun id => Resolver.forward.resolve id t.start) c =
        (.ok (meaning text t.start), d) ∧ d.ahead = rest ∧
      Moved c d (t :: w) (leaves text t.start) (meaning text t.start).depth := by
  obtain ⟨d, hread, hd, hmove⟩ := (ShapeId.reads_id levels).complete hc ⟨hid, rfl⟩ ha hrest
  obtain ⟨e, hresolve, he, hmove'⟩ := resolve_forward text t.start d
  refine ⟨e, ?_, he.trans hd, ?_⟩
  · rw [Reading.bind_of_ok hread]
    exact hresolve
  · rw [(meaning_flat text t.start).2]
    simpa using hmove.trans hmove'

/-! ## Whole values -/

/-- A value of one token is read by passing it. -/
theorem leaf_complete {t : Token} {rest : List Token} {read : Reading Node}
    (ha : c.ahead = t :: rest)
    (hne : t.kind ≠ .eof) (hread : read c = (.ok n, c.advance)) (hdepth : n.depth = 0) :
    ∃ d, read c = (.ok n, d) ∧ d.ahead = rest ∧ Moved c d [t] [] n.depth := by
  rw [hdepth]
  exact ⟨c.advance, hread, advance_ahead_of ha hne, moved_advance_of_ahead ha hne⟩

theorem reads_value_with (hinner : ReadsInside levels inner) :
    Reads levels (readWith .forward inner none) (ValueWithin levels) depth
      Token.Kind.joinsId where
  sound := by
    intro c d n hc hread
    have hmove (h : c.current.kind ≠ .eof) : Moved c c.advance [c.current] [] 0 := moved_advance h
    rcases readWith_eq_ok hread with ⟨text, h⟩ | ⟨value, h⟩ | h | h | h
    · rw [readWith_of_text h] at hread
      cases hread
      rcases h with h | h
      · exact ⟨_, [], ⟨.string h, fits_of_flat ⟨rfl, rfl⟩⟩, hmove (Token.ne_eof_of_content h)⟩
      · exact ⟨_, [], ⟨.textBlock h, fits_of_flat ⟨rfl, rfl⟩⟩, hmove (Token.ne_eof_of_content h)⟩
    · rw [readWith_of_number h] at hread
      cases hread
      exact ⟨_, [], ⟨.number h, fits_of_flat ⟨rfl, rfl⟩⟩, hmove (Token.ne_eof_of_content h)⟩
    · rw [readWith_of_identifier h] at hread
      exact id_sound hc hread
    · rw [readWith_of_leftBrace h] at hread
      exact nested_object_sound hinner hc (Token.kind_eq_leftBrace.mpr h) hread
    · rw [readWith_of_leftBracket h] at hread
      exact nested_array_sound hinner hc (Token.kind_eq_leftBracket.mpr h) hread
  complete := by
    rintro c w n refs rest hc ⟨hv, hfits⟩ ha hrest
    cases hv with
    | @string t text hcontent =>
      refine leaf_complete ha (Token.ne_eof_of_content hcontent) ?_ rfl
      rw [readWith_of_text (.inl (current_of_ahead ha ▸ hcontent)), current_of_ahead ha]
      rfl
    | @textBlock t text hcontent =>
      refine leaf_complete ha (Token.ne_eof_of_content hcontent) ?_ rfl
      rw [readWith_of_text (.inr (current_of_ahead ha ▸ hcontent)), current_of_ahead ha]
      rfl
    | @number t value hcontent =>
      refine leaf_complete ha (Token.ne_eof_of_content hcontent) ?_ rfl
      rw [readWith_of_number (current_of_ahead ha ▸ hcontent), current_of_ahead ha]
      rfl
    | @id t w text hid =>
      have hname : t.content = .identifier := by
        obtain ⟨u, x, hu, hk⟩ := hid.begins
        cases hu
        exact Token.kind_eq_identifier.mp (List.mem_singleton.mp hk)
      rw [readWith_of_identifier (current_of_ahead ha ▸ hname), current_of_ahead ha]
      exact id_complete hc hid ha hrest
    | @object l r g w entries refs hopen hg hm hclose =>
      rw [readWith_of_leftBrace (current_of_ahead ha ▸ Token.kind_eq_leftBrace.mp hopen)]
      exact nested_object_complete hinner hc hopen hg hm hclose hfits ha
    | @array l r g w items refs hopen hg hm hclose =>
      rw [readWith_of_leftBracket (current_of_ahead ha ▸ Token.kind_eq_leftBracket.mp hopen)]
      exact nested_array_complete hinner hc hopen hg hm hclose hfits ha

end Inner

/-- With so many levels left exactly the values are read that fit into them. -/
theorem reads_value_within (levels : Nat) :
    Reads levels (readWithin .forward levels none) (ValueWithin levels) depth
      Token.Kind.joinsId := by
  induction levels with
  | zero => exact reads_value_with nofun
  | succ k ih =>
    refine reads_value_with fun j hj => ?_
    cases hj
    exact ih

theorem reads_value (levels : Nat) :
    Reads levels (read .forward none) (ValueWithin levels) depth Token.Kind.joinsId where
  sound := by
    intro c d n hc hread
    rw [read, hc] at hread
    exact (reads_value_within levels).sound hc hread
  complete := by
    intro c w n refs rest hc hv ha hrest
    rw [read, hc]
    exact (reads_value_within levels).complete hc hv ha hrest

/-! ## The laws -/

/-- Whatever stands behind a value, unless it goes on with an id: the reader
passes some tokens for a value exactly if they are that value's, no object in it
has two equal keys, and it nests no deeper than the limit. -/
theorem exactly_the_grammatical_values_are_read {next : Token} (w rest : List Token)
    (hnext : next.kind.joinsId = false) (limit : Nat) (n : Node) (refs : List Reference) :
    (∃ d, read .forward none (ofTokens (w ++ next :: rest) limit) = (.ok n, d) ∧
        d.passed = w.reverse ∧ d.references = refs) ↔
      Value w n refs ∧ n.hasDistinctKeys ∧ n.depth ≤ limit := by
  obtain ⟨more, ha⟩ := ofTokens_ahead (t := next) w rest limit
  have hpasses := (reads_value limit).passes_iff n refs
    (c := ofTokens (w ++ next :: rest) limit) rfl ha (notNext_cons hnext)
  have hpassed : (ofTokens (w ++ next :: rest) limit).passed = [] := rfl
  have hrefs : (ofTokens (w ++ next :: rest) limit).references = [] := rfl
  rw [hpassed, hrefs, List.append_nil, List.nil_append] at hpasses
  rw [hpasses]
  exact and_congr_right fun _ => ⟨fun h => ⟨h.distinct, h.depth_le⟩, fun h => ⟨h.1, h.2⟩⟩

/-- A name in an array before a closing brace, one level deep. -/
theorem a_name_in_an_array_is_read_before_a_brace :
    let at0 : Location := .nowhere
    let l : Token := ⟨.leftBracket, utf8 "[", at0, at0⟩
    let x : Token := ⟨.identifier, utf8 "x", at0, at0⟩
    let r : Token := ⟨.rightBracket, utf8 "]", at0, at0⟩
    let next : Token := ⟨.rightBrace, utf8 "\x7d", at0, at0⟩
    ∃ d, read .forward none (ofTokens [l, x, r, next] 1) =
        (.ok (.array at0 [.string at0 (utf8 "x")]), d) ∧
      d.passed = [r, x, l] ∧ d.references = [⟨utf8 "x", at0⟩] := by
  intro at0 l x r next
  have hx : Value [x] (.string at0 (utf8 "x")) [⟨utf8 "x", at0⟩] :=
    .id (.mk (w := []) (x := []) (y := []) rfl .nil .absent .absent)
  refine (exactly_the_grammatical_values_are_read [l, x, r] [] rfl 1 _ _).mpr ⟨?_, rfl, by decide⟩
  exact .array rfl .nil (.cons hx .nil .nil) rfl

end Node

end ShapeTraits
