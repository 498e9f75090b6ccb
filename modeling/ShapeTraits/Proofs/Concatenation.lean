-- Documents behind one another are one document: what is read from it is what is
-- read from the first and then what is read from the second.
import Mathlib
import ShapeTraits.Cli.Run
import ShapeTraits.Proofs.DocumentReading
import ShapeTraits.Proofs.Seam

namespace ShapeTraits

open Grammar

/-! ## Statements behind one another -/

theorem Grammar.Many.append {α : Type} {P : Form α} {v w : List Token} {as bs : List α}
    {refs later : List Reference} (ha : Many P v as refs) (hb : Many P w bs later) :
    Many P (v ++ w) (as ++ bs) (refs ++ later) := by
  induction ha with
  | nil => exact hb
  | cons first gap _ ih =>
    have := Many.cons first gap ih
    simpa using this

section Denotes

variable {levels limit : Nat} {v w x g : List Token} {as bs : List Apply} {names later : List Bytes}

/-- Statements that look the same fit into equally many levels. -/
theorem fits_of_bare (h : bs.map Apply.bare = as.map Apply.bare)
    (hfits : ∀ s ∈ as, ∀ t ∈ s.traits, t.value.Fits levels) :
    ∀ s ∈ bs, ∀ t ∈ s.traits, t.value.Fits levels := by
  intro s hs t ht
  obtain ⟨s', hs', hsame⟩ := List.mem_map.mp (h ▸ List.mem_map_of_mem hs)
  have htraits : s'.traits.map Trait.bare = s.traits.map Trait.bare := congrArg Apply.traits hsame
  obtain ⟨t', ht', hsame⟩ := List.mem_map.mp (htraits ▸ List.mem_map_of_mem ht)
  exact Node.fits_of_bare (congrArg Trait.value hsame).symm (hfits s' hs' t' ht')

/-- Some tokens stand for statements that fit and look like these, and leave these
names for later. -/
def Denotes (levels : Nat) (as : List Apply) (names : List Bytes) (w : List Token) : Prop :=
  ∃ g x ss refs, w = g ++ x ∧ Gap g ∧ Many Statement x ss refs ∧
    (∀ s ∈ ss, ∀ t ∈ s.traits, t.value.Fits levels) ∧ ss.map Apply.bare = as.map Apply.bare ∧
      namesOf refs = names

theorem Denotes.alike (h : Denotes levels as names w) (hx : Alike w x) :
    Denotes levels as names x := by
  obtain ⟨g, y, ss, refs, rfl, hg, hm, hfits, hbare, hnames⟩ := h
  obtain ⟨g', y', rfl, hg', hy'⟩ := alike_append hx
  obtain ⟨ss', refs', hm', hbare', hnames'⟩ :=
    hm.carries (fun _ _ _ hs => carries_statement hs) y' hy'
  exact ⟨g', y', ss', refs', rfl, hg.alike hg', hm', fits_of_bare hbare' hfits, hbare'.trans hbare,
    hnames'.trans hnames⟩

/-- The gap before what comes second belongs to the last statement before it, or to
the gap before all statements if there is none. -/
theorem Denotes.append (ha : Denotes levels as names v) (hg : Gap g)
    (hb : Denotes levels bs later w) :
    Denotes levels (as ++ bs) (names ++ later) (v ++ (g ++ w)) := by
  obtain ⟨h, x, ss, refs, rfl, hh, hm, hfits, hbare, rfl⟩ := ha
  obtain ⟨k, y, ts, more, rfl, hk, hm', hfits', hbare', rfl⟩ := hb
  have hfits'' : ∀ s ∈ ss ++ ts, ∀ t ∈ s.traits, t.value.Fits levels :=
    fun s hs => (List.mem_append.mp hs).elim (hfits s) (hfits' s)
  have hbare'' : (ss ++ ts).map Apply.bare = (as ++ bs).map Apply.bare := by
    rw [List.map_append, List.map_append, hbare, hbare']
  by_cases hnone : ss = []
  · subst hnone
    cases hm
    refine ⟨h ++ (g ++ k), y, ts, more, by simp, hh.append (hg.append hk), hm', hfits', hbare'', ?_⟩
    simp
  · refine ⟨h, x ++ (g ++ k) ++ y, ss ++ ts, refs ++ more, by simp, hh,
      (hm.appendGap (hg.append hk) hnone).append hm', hfits'', hbare'', namesOf_append _ _⟩

/-! ## Reading -/

theorem denotes_of_read {eof : Token} {d : Cursor} (hend : eof.kind = .eof)
    (hw : ∀ t ∈ w, t.kind ≠ .eof) (h : readDocument .forward (w ++ [eof]) limit = (.ok as, d)) :
    Denotes limit as (namesOf d.references) w := by
  obtain ⟨hk, g, x, refs, hg, hm, hfits, hmove⟩ := Apply.readAll_sound rfl h
  have hahead := Cursor.ofTokens_ahead_of_end hend w limit
  have hx : w = g ++ x :=
    Apply.before_the_end_eq hend hw hmove.noEnd hk (hahead.symm.trans hmove.ahead)
  have hrefs : d.references = refs := hmove.references.trans (List.nil_append refs)
  exact ⟨g, x, as, refs, hx, hg, hm, hfits, rfl, by rw [hrefs]⟩

theorem Denotes.read {eof : Token} (h : Denotes limit as names w) (hend : eof.kind = .eof) :
    ∃ ss d, readDocument .forward (w ++ [eof]) limit = (.ok ss, d) ∧
      ss.map Apply.bare = as.map Apply.bare ∧ namesOf d.references = names := by
  obtain ⟨g, x, ss, refs, rfl, hg, hm, hfits, hbare, rfl⟩ := h
  have hahead := (Cursor.ofTokens_ahead_of_end hend (g ++ x) limit).trans (List.append_assoc _ _ _)
  have hlevels : (Cursor.ofTokens (g ++ x ++ [eof]) limit).limit - 0 = limit := rfl
  obtain ⟨d, hread, -, hmove⟩ := Apply.readAll_complete hlevels hend hg hm hfits hahead
  have hrefs : d.references = refs := hmove.references.trans (List.nil_append refs)
  exact ⟨ss, d, hread, hbare, by rw [hrefs]⟩

/-- A document that is read is spelled as its statements before more lines. -/
theorem spells_of_read {s : Source} {d : Cursor} (hlex : lexicalErrors s.tokens = [])
    (h : readDocument .forward s.tokens limit = (.ok as, d)) :
    Spells s.content Byte.isWithinLine (Denotes limit as (namesOf d.references)) := by
  obtain ⟨w, eof, htokens, hend, hw, hspells⟩ := (Lexer.ofSource s).spells_ahead hlex
  have htokens : s.tokens = w ++ [eof] := htokens
  rw [htokens] at h
  exact hspells.imp (fun _ hb => hb) fun _ hx => (denotes_of_read hend hw h).alike hx

end Denotes

/-! ## The laws -/

/-- If two texts are read as documents without errors, so are the two with a line
feed between them. This gives the statements of the first and then those of the
second, up to locations, and leaves the names of both in this order for later. -/
theorem documents_are_read_behind_one_another {s t : Source} {limit : Nat} {as bs : List Apply}
    {c d : Cursor} (hs : lexicalErrors s.tokens = [])
    (hreads : readDocument .forward s.tokens limit = (.ok as, c))
    (ht : lexicalErrors t.tokens = [])
    (hreadt : readDocument .forward t.tokens limit = (.ok bs, d)) (file : Bytes) :
    let both : Source := ⟨file, s.content ++ (Byte.lineFeed :: t.content)⟩
    lexicalErrors both.tokens = [] ∧
      ∃ ss e, readDocument .forward both.tokens limit = (.ok ss, e) ∧
        ss.map Apply.bare = as.map Apply.bare ++ bs.map Apply.bare ∧
        namesOf e.references = namesOf c.references ++ namesOf d.references := by
  intro both
  -- The line feed goes with the second text, as the gap before its statements.
  have hsecond : Spells (Byte.lineFeed :: t.content) Byte.isWithinLine fun w =>
      ∃ g x, w = g ++ x ∧ Gap g ∧ Denotes limit bs (namesOf d.references) x := by
    refine Spells.append Spells.newline (spells_of_read ht hreadt)
      (fun _ _ => Spells.avoids_anything _) ?_
    rintro _ x ⟨feed, rfl, hfeed, -⟩ hx
    refine ⟨[feed], x, rfl, List.forall_mem_singleton.mpr ?_, hx⟩
    rw [Token.kind, hfeed]
    rfl
  have hboth := Spells.append (spells_of_read hs hreads) hsecond
    (R := Denotes limit (as ++ bs) (namesOf c.references ++ namesOf d.references))
    (fun rest _ => Bytes.avoids_cons rfl) fun x y hx hy => by
      obtain ⟨g, z, rfl, hg, hz⟩ := hy
      exact hx.append hg hz
  obtain ⟨w, eof, htokens, hend, hlex, hw⟩ := hboth.document file
  obtain ⟨ss, e, hread, hbare, hnames⟩ := hw.read hend
  rw [← htokens] at hread
  exact ⟨hlex, ss, e, hread, by rw [hbare, List.map_append], hnames⟩

/-- A statement that leaves a name for later, and one behind documentation. -/
theorem two_statements_are_read_on_their_lines :
    let first : Apply :=
      ⟨utf8 "x", .nowhere, [⟨utf8 "y", .string .nowhere (utf8 "z"), .value, .nowhere⟩]⟩
    let second : Apply :=
      ⟨utf8 "y", .nowhere, [⟨utf8 "x", .number .nowhere (.int64 1), .value, .nowhere⟩]⟩
    let both : Source := ⟨[], utf8 "apply x @y(z)\n/// text\napply y @x(1)"⟩
    lexicalErrors both.tokens = [] ∧
      ∃ ss e, readDocument .forward both.tokens 0 = (.ok ss, e) ∧
        ss.map Apply.bare = [first, second] ∧ namesOf e.references = [utf8 "z"] := by
  intro first second both
  let s : Source := ⟨[], utf8 "apply x @y(z)"⟩
  let t : Source := ⟨[], utf8 "/// text\napply y @x(1)"⟩
  have hs : (readDocument .forward s.tokens 0).1.toOption.map (List.map Apply.bare) =
      some [first] := by
    cbv
  have ht : (readDocument .forward t.tokens 0).1.toOption.map (List.map Apply.bare) =
      some [second] := by
    cbv
  have hc : namesOf (readDocument .forward s.tokens 0).2.references = [utf8 "z"] := by
    decide +kernel
  have hd : namesOf (readDocument .forward t.tokens 0).2.references = [] := by decide +kernel
  obtain ⟨as, hreads, has⟩ := Reading.ok_of_view hs
  obtain ⟨bs, hreadt, hbs⟩ := Reading.ok_of_view ht
  have hboth := documents_are_read_behind_one_another (s := s) (t := t) (by decide +kernel) hreads
    (by decide +kernel) hreadt []
  rw [has, hbs, hc, hd] at hboth
  exact hboth

end ShapeTraits
