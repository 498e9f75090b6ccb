-- Which trivia stand between two tokens does not matter, but only whether there are any,
-- and behind the word that begins a statement, whether a blank or line break comes first.
-- Tokens with the same outline are read alike.
import Mathlib
import ShapeTraits.Proofs.DocumentationLedger
import ShapeTraits.Proofs.Simulation
import ShapeTraits.Token.Lexer

namespace ShapeTraits

open Cursor Grammar

/-! ## Outlines -/

/-- Blanks and line breaks. -/
def Token.Kind.isBlank (k : Token.Kind) : Bool := k == .space || k == .newline

/-- Whether a token is the word that begins a statement. -/
def Token.isKeyword (t : Token) : Bool := t.content == .identifier && t.lexeme == Apply.keyword

/-- The tokens but the trivia, without their places. With each of them stands whether there
are trivia before it, and if so, whether a blank comes first, which is only told behind the
keyword. Trivia behind the last of the tokens are not told of. -/
def outline (behindKeyword : Bool) (first : Option Token.Kind) :
    List Token → List (Option Bool × Token.Content × Bytes)
  | [] => []
  | t :: rest =>
    if t.kind.isTrivia then outline behindKeyword (first.or (some t.kind)) rest
    else (first.map (behindKeyword && ·.isBlank), t.plain) :: outline t.isKeyword none rest

/-- Both have the same outline. -/
def Respaced (w x : List Token) : Prop := outline false none w = outline false none x

instance (w x : List Token) : Decidable (Respaced w x) := inferInstanceAs (Decidable (_ = _))

/-! ## Tokens in step -/

/-- Nothing but the end is ahead. -/
def AtEnd (w : List Token) : Prop := (w.headD .missingEof).kind = .eof

/-- Whether some tokens begin with a blank. -/
def startsBlank (g : List Token) : Bool := (g.head?.map (·.kind.isBlank)).getD false

/-- Tokens with the same outline, up to the first end, if they stand behind the keyword or
do not. -/
inductive Matches : Bool → List Token → List Token → Prop
  | ends {k g h v w} (trivia : Trivia g) (trivia' : Trivia h) (atEnd : AtEnd v) (atEnd' : AtEnd w) :
      Matches k (g ++ v) (h ++ w)
  | token {k g h t u v w} (trivia : Trivia g) (trivia' : Trivia h) (none : h = [] ↔ g = [])
      (blank : k = true → startsBlank h = startsBlank g) (plain : u.plain = t.plain)
      (content : t.kind.isTrivia = false) (notEnd : t.kind ≠ .eof)
      (rest : Matches t.isKeyword v w) :
      Matches k (g ++ t :: v) (h ++ u :: w)

section Matches

variable {k : Bool} {v w x y : List Token} {t u : Token} {first : Option Token.Kind}

theorem AtEnd.notNext {bad : Token.Kind → Bool} (h : AtEnd w) (hbad : bad .eof = false) :
    NotNext bad w := by
  cases w with
  | nil => exact fun _ ht => by cases ht
  | cons t w => exact notNext_cons ((congrArg bad h).trans hbad)

theorem outline_trivia (g : List Token) (hg : Trivia g) (w : List Token) :
    outline k first (g ++ w) = outline k (first.or (g.head?.map Token.kind)) w := by
  induction g generalizing first with
  | nil => cases first <;> rfl
  | cons t g ih =>
    obtain ⟨ht, hg⟩ := List.forall_mem_cons.mp hg
    rw [List.cons_append, outline, if_pos ht, ih hg]
    cases first <;> rfl

theorem outline_content (ht : t.kind.isTrivia = false) (w : List Token) :
    outline k first (t :: w) =
      (first.map (k && ·.isBlank), t.plain) :: outline t.isKeyword none w := by
  rw [outline, if_neg (by rw [ht]; decide)]

theorem isKeyword_of_plain (h : u.plain = t.plain) : u.isKeyword = t.isKeyword := by
  rw [Token.isKeyword, Token.isKeyword, Token.content_of_plain h, Token.lexeme_of_plain h]

/-- Before the first token of an outline, both have trivia or none has, and both begin with
a blank or none does. -/
theorem outline_first {g h : List Token}
    (heq : (g.head?.map Token.kind).map (k && ·.isBlank) =
      (h.head?.map Token.kind).map (k && ·.isBlank)) :
    (h = [] ↔ g = []) ∧ (k = true → startsBlank h = startsBlank g) := by
  cases g with
  | nil =>
    cases h with
    | nil => exact ⟨Iff.rfl, fun _ => rfl⟩
    | cons u h => cases heq
  | cons t g =>
    cases h with
    | nil => cases heq
    | cons u h =>
      refine ⟨iff_of_false (List.cons_ne_nil _ _) (List.cons_ne_nil _ _), fun hk => ?_⟩
      subst hk
      exact (Option.some.inj heq).symm

/-- Tokens with the same outline are in step up to their ends. -/
theorem matches_of_outline (h : outline k none v = outline k none w) (hx : AtEnd x) (hy : AtEnd y) :
    Matches k (v ++ x) (w ++ y) := by
  -- An outline passes over trivia, so the step is to the next token of another kind.
  induction hn : v.length using Nat.strongRecOn generalizing k v w with
  | ind n ih =>
    subst hn
    have hempty {g : List Token} (hg : Trivia g) : outline k none g = [] := by
      rw [← List.append_nil g, outline_trivia g hg]
      rfl
    rcases trivia_or_content v with hv | ⟨g, t, v, rfl, hg, ht⟩ <;>
      rcases trivia_or_content w with hw | ⟨g', u, w, rfl, hg', hu⟩
    · exact .ends hv hw hx hy
    · rw [hempty hv, outline_trivia g' hg', outline_content hu] at h
      cases h
    · rw [hempty hw, outline_trivia g hg, outline_content ht] at h
      cases h
    · rw [outline_trivia g hg, outline_trivia g' hg', outline_content ht, outline_content hu,
        Option.none_or, Option.none_or] at h
      obtain ⟨hhead, hrest⟩ := List.cons.inj h
      obtain ⟨hfirst, hplain⟩ := Prod.mk.inj hhead
      obtain ⟨hnone, hblank⟩ := outline_first hfirst
      rw [List.append_assoc, List.append_assoc]
      by_cases hend : t.kind = .eof
      · exact .ends hg hg' hend ((Token.kind_of_plain hplain.symm).trans hend)
      · refine .token hg hg' hnone hblank hplain.symm ht hend (ih _ ?_ ?_ rfl)
        · rw [List.length_append, List.length_cons]
          omega
        · rw [hrest, isKeyword_of_plain hplain]

end Matches

/-! ## Cursors in step -/

/-- Before tokens that are in step, and with the same documentation and as many warnings. -/
structure RespacedCursors (c c' : Cursor) : Prop where
  ahead : ∃ k, Matches k c.ahead c'.ahead
  limit : c'.limit = c.limit
  depth : c'.depth = c.depth
  docs : c'.docs = c.docs
  names : namesOf c'.references = namesOf c.references
  warnings : c'.warnings.length = c.warnings.length

/-- Places do not count, and of errors only their kinds. -/
def respacing : Relations where
  cursor := RespacedCursors
  place _ _ := True
  node n n' := n'.bare id = n.bare id
  blame e e' := e'.cause.kind = e.cause.kind

/-- Names stand for the same in all places, but for the places in it. -/
def Resolver.IgnoresPlaces (r : Resolver) : Prop :=
  ∀ name l l', (r.answer ⟨name, l'⟩).bare id = (r.answer ⟨name, l⟩).bare id

theorem Resolver.forward_ignoresPlaces : forward.IgnoresPlaces := fun name l l' =>
  meaning_bare name l l'

theorem Resolver.fixed_ignoresPlaces (n : Node) : (fixed n).IgnoresPlaces := fun _ _ _ => by
  cases n <;> rfl

section Steps

variable {c c' : Cursor} {k : Bool}

theorem gap_of_trivia {g v : List Token} (hg : Trivia g) (hne : g ≠ []) (h : c.ahead = g ++ v) :
    c.kind.isGap = true := by
  cases g with
  | nil => exact absurd rfl hne
  | cons t g =>
    rw [kind_of_ahead h, Token.Kind.isGap, (List.forall_mem_cons.mp hg).1]
    rfl

theorem gap_or_end_of_ends {g v : List Token} (hg : Trivia g) (hv : AtEnd v)
    (h : c.ahead = g ++ v) :
    c.kind.isGap = true ∨ c.kind = .eof := by
  by_cases hne : g = []
  · rw [Cursor.kind, Cursor.current, h, hne]
    exact .inr hv
  · exact .inl (gap_of_trivia hg hne h)

theorem RespacedCursors.sight (h : RespacedCursors c c') :
    Sight (fun _ _ => True) c.current c'.current := by
  obtain ⟨k, hmatch⟩ := h.ahead
  generalize ha : c.ahead = w at hmatch
  generalize ha' : c'.ahead = w' at hmatch
  cases hmatch with
  | ends trivia trivia' atEnd atEnd' =>
    exact .blank (gap_or_end_of_ends trivia atEnd ha) (gap_or_end_of_ends trivia' atEnd' ha')
  | @token _ g g' t u _ _ trivia trivia' none blank plain content notEnd rest =>
    by_cases hg : g = []
    · obtain rfl := none.mpr hg
      subst hg
      rw [current_of_ahead ha, current_of_ahead ha']
      exact .same plain trivial
    · exact .blank (.inl (gap_of_trivia trivia hg ha))
        (.inl (gap_of_trivia trivia' (mt none.mp hg) ha'))

/-- Where a token of a kind that is not idle is seen, it is ahead of both, and behind it the
tokens are in step again. -/
theorem RespacedCursors.content (h : RespacedCursors c c') (hk : c.kind.isIdle = false) :
    ∃ t u v w, c.ahead = t :: v ∧ c'.ahead = u :: w ∧ u.plain = t.plain ∧
      Matches t.isKeyword v w := by
  obtain ⟨k, hmatch⟩ := h.ahead
  generalize ha : c.ahead = x at hmatch
  generalize ha' : c'.ahead = x' at hmatch
  cases hmatch with
  | ends trivia trivia' atEnd atEnd' =>
    rw [Token.Kind.isIdle_of (gap_or_end_of_ends trivia atEnd ha)] at hk
    cases hk
  | @token _ g g' t u v w trivia trivia' none blank plain content notEnd rest =>
    by_cases hg : g = []
    · obtain rfl := none.mpr hg
      subst hg
      exact ⟨t, u, v, w, rfl, rfl, plain, rest⟩
    · rw [Token.Kind.isIdle_of (.inl (gap_of_trivia trivia hg ha))] at hk
      cases hk

theorem RespacedCursors.advance (h : RespacedCursors c c') (hk : c.kind.isIdle = false) :
    RespacedCursors c.advance c'.advance := by
  obtain ⟨t, u, v, w, ha, ha', hplain, hmatch⟩ := h.content hk
  have ht : t.kind.isIdle = false := (congrArg _ (kind_of_ahead ha)).symm.trans hk
  have hu : u.kind.isIdle = false := (congrArg _ (Token.kind_of_plain hplain)).trans ht
  rw [Token.Kind.isIdle_eq_false] at ht hu
  rw [advance_of_ahead ha ht.2.2, advance_of_ahead ha' hu.2.2, take_of_content ht.1,
    take_of_content hu.1, dropDocs, dropDocs, h.docs]
  by_cases hdocs : c.docs = []
  · rw [if_pos hdocs, if_pos hdocs]
    exact ⟨⟨_, hmatch⟩, h.limit, h.depth, h.docs, h.names, h.warnings⟩
  · rw [if_neg hdocs, if_neg hdocs]
    refine ⟨⟨_, hmatch⟩, h.limit, h.depth, rfl, h.names, ?_⟩
    simp only [List.length_append, h.warnings, List.length_singleton]

theorem RespacedCursors.skipTrivia (h : RespacedCursors c c') :
    RespacedCursors c.skipTrivia c'.skipTrivia := by
  obtain ⟨k, hmatch⟩ := h.ahead
  generalize ha : c.ahead = x at hmatch
  generalize ha' : c'.ahead = x' at hmatch
  have hskip {g v g' v' : List Token} (hg : Trivia g) (hg' : Trivia g') (ha : c.ahead = g ++ v)
      (ha' : c'.ahead = g' ++ v') (hv : NotNext Token.Kind.isTrivia v)
      (hv' : NotNext Token.Kind.isTrivia v') (hmatch : Matches k v v') :
      RespacedCursors c.skipTrivia c'.skipTrivia := by
    rw [skipTrivia_of_trivia hg ha hv, skipTrivia_of_trivia hg' ha' hv']
    exact ⟨⟨k, hmatch⟩, h.limit, h.depth, h.docs, h.names, h.warnings⟩
  cases hmatch with
  | ends trivia trivia' atEnd atEnd' =>
    exact hskip trivia trivia' ha ha' (atEnd.notNext rfl) (atEnd'.notNext rfl)
      (.ends (g := []) (h := []) .nil .nil atEnd atEnd')
  | token trivia trivia' none blank plain content notEnd rest =>
    have content' := (congrArg Token.Kind.isTrivia (Token.kind_of_plain plain)).trans content
    exact hskip trivia trivia' ha ha' (notNext_cons content) (notNext_cons content')
      (.token (g := []) (h := []) .nil .nil Iff.rfl (fun _ => rfl) plain content notEnd rest)

/-- Gaps that are in step have the same documentation, and so have what follows them. -/
theorem Matches.splitGap {x x' : List Token} (h : Matches k x x') :
    ∃ g v g' v' k', x = g ++ v ∧ x' = g' ++ v' ∧ Gap g ∧ Gap g' ∧ NotNext Token.Kind.isGap v ∧
      NotNext Token.Kind.isGap v' ∧ docLines g' = docLines g ∧ Matches k' v v' := by
  have hgap {g : List Token} (hg : Trivia g) : Gap g :=
    fun t ht => Token.Kind.isGap_iff.mpr (.inl (hg t ht))
  -- Documentation is no trivia: a gap is trivia and documentation in turns.
  induction h with
  | @ends k g g' v v' trivia trivia' atEnd atEnd' =>
    refine ⟨g, v, g', v', k, rfl, rfl, hgap trivia, hgap trivia', atEnd.notNext rfl,
      atEnd'.notNext rfl, ?_, .ends (g := []) (h := []) .nil .nil atEnd atEnd'⟩
    rw [docLines_of_trivia trivia, docLines_of_trivia trivia']
  | @token k g g' t u v w trivia trivia' none blank plain content notEnd rest ih =>
    have hkind := Token.kind_of_plain plain
    by_cases hdoc : t.kind.isGap = true
    · obtain ⟨h, y, h', y', k', rfl, rfl, hh, hh', hy, hy', hdocs, hmatch⟩ := ih
      have hone : docLines [u] = docLines [t] := by
        simp only [docLines, List.filterMap_cons, Token.content_of_plain plain]
      refine ⟨g ++ [t] ++ h, y, g' ++ [u] ++ h', y', k', by simp, by simp, ?_, ?_, hy,
        hy', ?_, hmatch⟩
      · exact ((hgap trivia).append fun s hs => List.mem_singleton.mp hs ▸ hdoc).append hh
      · refine ((hgap trivia').append fun s hs => ?_).append hh'
        rw [List.mem_singleton.mp hs, hkind, hdoc]
      · simp only [docLines_append, docLines_of_trivia trivia, docLines_of_trivia trivia',
          hone, hdocs]
    · rw [Bool.not_eq_true] at hdoc
      refine ⟨g, t :: v, g', u :: w, k, rfl, rfl, hgap trivia, hgap trivia', notNext_cons hdoc,
        notNext_cons (by rw [hkind, hdoc]), ?_,
        .token (g := []) (h := []) .nil .nil Iff.rfl (fun _ => rfl) plain content notEnd rest⟩
      rw [docLines_of_trivia trivia, docLines_of_trivia trivia']

theorem RespacedCursors.skipGap (h : RespacedCursors c c') :
    RespacedCursors c.skipGap c'.skipGap := by
  obtain ⟨k, hmatch⟩ := h.ahead
  obtain ⟨g, v, g', v', k', ha, ha', hg, hg', hv, hv', hdocs, hmatch'⟩ := hmatch.splitGap
  rw [skipGap_of_gap hg ha hv, skipGap_of_gap hg' ha' hv']
  exact ⟨⟨k', hmatch'⟩, h.limit, h.depth, by rw [h.docs, hdocs], h.names, h.warnings⟩

theorem RespacedCursors.takeDocs (h : RespacedCursors c c') :
    c'.takeDocs.1 = c.takeDocs.1 ∧ RespacedCursors c.takeDocs.2 c'.takeDocs.2 := by
  rw [Cursor.takeDocs, Cursor.takeDocs, h.docs]
  by_cases hdocs : c.docs = []
  · rw [if_pos hdocs, if_pos hdocs]
    exact ⟨rfl, h⟩
  · rw [if_neg hdocs, if_neg hdocs]
    exact ⟨rfl, h.ahead, h.limit, h.depth, rfl, h.names, h.warnings⟩

/-- What a name stands for is the same in all places, but for the places in it. -/
theorem RespacedCursors.resolve (h : RespacedCursors c c') {r : Resolver} (hr : r.IgnoresPlaces)
    (name : Bytes) (l l' : Location) :
    respacing.InStep respacing.node (r.resolve name l c) (r.resolve name l' c') := by
  have hkeep (d d' : Cursor) (hd : RespacedCursors d d') :
      RespacedCursors (Resolver.keep d name l) (Resolver.keep d' name l') := by
    refine ⟨hd.ahead, hd.limit, hd.depth, hd.docs, ?_, hd.warnings⟩
    rw [Resolver.keep, Resolver.keep, namesOf_append, namesOf_append, hd.names]
    rfl
  cases r with
  | answering answer => exact .ok (hr name l l') (hkeep c c' h)
  | forward =>
    by_cases hname : name ∈ keywords
    · rw [Resolver.resolve, Resolver.resolve, Node.keyword?_of_mem hname,
        Node.keyword?_of_mem hname]
      exact .ok (meaning_bare _ _ _) h
    · rw [Resolver.resolve, Resolver.resolve, (Node.keyword?_of_not_mem hname l).1,
        (Node.keyword?_of_not_mem hname l').1]
      exact .ok rfl (hkeep _ _ ⟨h.ahead, h.limit, h.depth, h.docs, h.names, h.warnings⟩)

end Steps

theorem respacing_kept {r : Resolver} (hr : r.IgnoresPlaces) : respacing.Kept r r where
  sight h := h.sight
  limit h := h.limit
  depth h := h.depth
  advance h := h.advance
  skipGap h := h.skipGap
  note _ _ h := ⟨h.ahead, h.limit, h.depth, h.docs, h.names, h.warnings⟩
  enter h := ⟨h.ahead, h.limit, congrArg (· + 1) h.depth, h.docs, h.names, h.warnings⟩
  leave h := ⟨h.ahead, h.limit, congrArg (· - 1) h.depth, h.docs, h.names, h.warnings⟩
  refuse _ grammar _ _ := (grammar _).trans (grammar _).symm
  tooDeep _ := rfl
  twice _ _ _ := rfl
  null _ := rfl
  number _ _ := rfl
  string _ _ := rfl
  array _ h := by
    show (Node.array _ _).bare id = (Node.array _ _).bare id
    rw [Node.bare_array, Node.bare_array, map_eq_of_forall₂ h fun _ _ hn => hn]
  object {l l' m m'} _ h := by
    have hentries (e e' : Entry Node) (he : respacing.Entries e e') :
        Node.bareEntry id e' = Node.bareEntry id e := by
      rw [Node.bareEntry, Node.bareEntry, he.key, he.value]
    obtain ⟨entries⟩ := m
    obtain ⟨entries'⟩ := m'
    show (Node.object _ _).bare id = (Node.object _ _).bare id
    rw [Node.bare_object, Node.bare_object, map_eq_of_forall₂ h hentries]
  resolve name _ h := h.resolve hr name _ _

/-! ## Where trivia count -/

section Trivia

variable {c c' : Cursor}

/-- Behind the keyword there is no target if only trivia are ahead. -/
theorem behindKeyword_of_ends {g v : List Token} (hg : Trivia g) (hv : AtEnd v)
    (ha : c.ahead = g ++ v) :
    ∃ e passed more, Apply.readBehindKeyword c = (.error e, { c with passed, ahead := more ++ v }) ∧
      Trivia more ∧ e.cause.kind = .grammar := by
  by_cases hblank : c.kind ∈ [.space, .newline]
  · have hskip := skipTrivia_of_trivia hg ha (hv.notNext rfl)
    have hend : c.skipTrivia.kind = .eof := by
      rw [hskip]
      exact hv
    have hname : ShapeId.name [] c.skipTrivia =
        (.error (c.skipTrivia.unexpected [.identifier]), c.skipTrivia) :=
      Reading.expect_bind_of_not_mem (by rw [hend]; decide)
    refine ⟨_, g.reverse ++ c.passed, [], ?_, .nil, unexpected_grammar c.skipTrivia [.identifier]⟩
    rw [Apply.readBehindKeyword, Reading.expect_bind_of_mem hblank, Reading.skipTrivia_bind,
      ShapeId.read, Reading.bind_of_error hname]
    exact congrArg (Prod.mk _) hskip
  · refine ⟨_, c.passed, g, ?_, hg, unexpected_grammar c [.space, .newline]⟩
    rw [Apply.readBehindKeyword, Reading.expect_bind_of_not_mem hblank, ← ha]

theorem blank_iff {g v : List Token} {t : Token} (ht : t.kind.isTrivia = false)
    (ha : c.ahead = g ++ t :: v) :
    c.kind ∈ [.space, .newline] ↔ startsBlank g = true := by
  cases g with
  | nil =>
    rw [kind_of_ahead ha]
    refine iff_of_false (fun hmem => ?_) (by decide)
    rw [(by decide : ∀ k ∈ [Token.Kind.space, .newline], k.isTrivia = true) _ hmem] at ht
    cases ht
  | cons s g =>
    rw [kind_of_ahead ha, List.mem_pair]
    show _ ↔ (s.kind == .space || s.kind == .newline) = true
    rw [Bool.or_eq_true, beq_iff_eq, beq_iff_eq]

/-- Behind the keyword both have a blank or none has, unless only trivia follow. -/
theorem RespacedCursors.behindKeyword (h : RespacedCursors c c')
    (hmatch : Matches true c.ahead c'.ahead) :
    respacing.InStep Eq (Apply.readBehindKeyword c) (Apply.readBehindKeyword c') := by
  generalize ha : c.ahead = x at hmatch
  generalize ha' : c'.ahead = x' at hmatch
  cases hmatch with
  | ends trivia trivia' atEnd atEnd' =>
    obtain ⟨e, passed, more, hread, hmore, hgrammar⟩ := behindKeyword_of_ends trivia atEnd ha
    obtain ⟨e', passed', more', hread', hmore', hgrammar'⟩ :=
      behindKeyword_of_ends trivia' atEnd' ha'
    rw [hread, hread']
    exact .error (hgrammar'.trans hgrammar.symm)
      ⟨⟨true, .ends hmore hmore' atEnd atEnd'⟩, h.limit, h.depth, h.docs, h.names, h.warnings⟩
  | @token _ g g' t u _ _ _ _ _ blank plain content _ _ =>
    have content' := (congrArg Token.Kind.isTrivia (Token.kind_of_plain plain)).trans content
    have hiff : c'.kind ∈ [.space, .newline] ↔ c.kind ∈ [.space, .newline] := by
      rw [blank_iff content ha, blank_iff content' ha', blank rfl]
    by_cases hblank : c.kind ∈ [.space, .newline]
    · rw [Apply.readBehindKeyword, Reading.expect_bind_of_mem hblank,
        Reading.expect_bind_of_mem (hiff.mpr hblank)]
      -- Ids are read without any resolver.
      exact (respacing_kept Resolver.forward_ignoresPlaces).shapeId h.skipTrivia
    · rw [Apply.readBehindKeyword, Reading.expect_bind_of_not_mem hblank,
        Reading.expect_bind_of_not_mem (mt hiff.mp hblank)]
      exact .error ((unexpected_grammar _ _).trans (unexpected_grammar _ _).symm) h

theorem keyword_iff (t : Token) :
    t.content = .identifier ∧ t.lexeme = Apply.keyword ↔ t.isKeyword = true := by
  rw [Token.isKeyword, Bool.and_eq_true, beq_iff_eq, beq_iff_eq]

theorem idle_of_keyword (h : c.current.isKeyword = true) : c.kind.isIdle = false := by
  rw [Cursor.kind, Token.kind, ((keyword_iff _).mpr h).1]
  rfl

theorem RespacedCursors.isKeyword (h : RespacedCursors c c') :
    c'.current.isKeyword = c.current.isKeyword := by
  cases h.sight with
  | same plain _ => exact isKeyword_of_plain plain
  | idle first second _ =>
    have hnot {d : Cursor} (hd : d.kind.isIdle = true) : d.current.isKeyword = false :=
      Bool.eq_false_iff.mpr fun hk => absurd (hd.symm.trans (idle_of_keyword hk)) (by decide)
    rw [hnot first, hnot second]

theorem RespacedCursors.target (h : RespacedCursors c c') :
    respacing.InStep Eq (Apply.readTarget c) (Apply.readTarget c') := by
  have hword (d : Cursor) := Apply.readKeyword_apply d
  simp only [keyword_iff] at hword
  by_cases hkeyword : c.current.isKeyword = true
  · have hidle := idle_of_keyword hkeyword
    obtain ⟨t, u, v, w, ha, ha', hplain, hmatch⟩ := h.content hidle
    have ht : t.isKeyword = true := current_of_ahead ha ▸ hkeyword
    have hne : t.kind ≠ .eof := by
      rw [Token.kind, ((keyword_iff t).mpr ht).1]
      decide
    have hadvance := h.advance hidle
    rw [ht, ← advance_ahead_of ha hne,
      ← advance_ahead_of ha' (by rw [Token.kind_of_plain hplain]; exact hne)] at hmatch
    rw [Apply.readTarget, Reading.bind_of_ok ((hword c).trans (if_pos hkeyword)),
      Reading.bind_of_ok ((hword c').trans (if_pos (h.isKeyword.trans hkeyword)))]
    exact hadvance.behindKeyword hmatch
  · rw [Apply.readTarget, Reading.bind_of_error ((hword c).trans (if_neg hkeyword)),
      Reading.bind_of_error ((hword c').trans (if_neg (by rwa [h.isKeyword])))]
    exact .error ((Token.keywordCause_grammar _).trans (Token.keywordCause_grammar _).symm) h

/-- What both see behind trivia is of the same kind. -/
theorem RespacedCursors.kind_eq (h : RespacedCursors c c') (hk : c.kind.isTrivia = false)
    (hk' : c'.kind.isTrivia = false) : c'.kind = c.kind := by
  have hnil {d : Cursor} {g v : List Token} (hg : Trivia g) (ha : d.ahead = g ++ v)
      (hd : d.kind.isTrivia = false) : d.ahead = v := by
    cases g with
    | nil => exact ha
    | cons t g =>
      rw [kind_of_ahead ha, (List.forall_mem_cons.mp hg).1] at hd
      cases hd
  obtain ⟨k, hmatch⟩ := h.ahead
  generalize ha : c.ahead = x at hmatch
  generalize ha' : c'.ahead = x' at hmatch
  cases hmatch with
  | ends trivia trivia' atEnd atEnd' =>
    rw [Cursor.kind, Cursor.kind, Cursor.current, Cursor.current, hnil trivia ha hk,
      hnil trivia' ha' hk', atEnd, atEnd']
  | token trivia trivia' none blank plain content notEnd rest =>
    rw [kind_of_ahead (hnil trivia ha hk), kind_of_ahead (hnil trivia' ha' hk'),
      Token.kind_of_plain plain]

theorem RespacedCursors.readDocs (h : RespacedCursors c c') :
    respacing.InStep (Option.Rel respacing.Traits) (Trait.readDocs c) (Trait.readDocs c') := by
  have hkind := h.skipTrivia.kind_eq (skipTrivia_stops c) (skipTrivia_stops c')
  rw [Trait.readDocs_apply, Trait.readDocs_apply, hkind]
  by_cases hdoc : c.skipTrivia.kind = .docComment
  · obtain ⟨htext, hcursor⟩ := h.skipTrivia.skipGap.takeDocs
    rw [if_pos hdoc, if_pos hdoc, htext]
    refine .ok ?_ hcursor
    cases c.skipTrivia.skipGap.takeDocs.1 with
    | none => exact .none
    | some text => exact .some ⟨rfl, rfl, rfl, trivial⟩
  · rw [if_neg hdoc, if_neg hdoc]
    exact .ok .none h.skipTrivia

theorem RespacedCursors.leading (h : RespacedCursors c c') {r : Resolver} (hr : r.IgnoresPlaces) :
    respacing.InStep (List.Forall₂ respacing.Traits) (Trait.readLeading r c)
      (Trait.readLeading r c') :=
  Relations.Kept.bind h.readDocs fun _ _ hdocs hd => (respacing_kept hr).behindDocs hdocs hd

end Trivia

/-! ## The law -/

/-- Two runs end alike: with answers that look the same and with the same names for later,
or with errors of the same kind; and in either case with as many warnings. -/
def EndAlike {α β : Type} (view : α → β) (found found' : Except ParseError α × Cursor) : Prop :=
  found'.2.warnings.length = found.2.warnings.length ∧
    ((∃ a a', found.1 = .ok a ∧ found'.1 = .ok a' ∧ view a' = view a ∧
        namesOf found'.2.references = namesOf found.2.references) ∨
      ∃ e e', found.1 = .error e ∧ found'.1 = .error e' ∧ e'.cause.kind = e.cause.kind)

section Law

theorem endAlike_of_inStep {α β : Type} {R : α → α → Prop} {view : α → β}
    {found found' : Except ParseError α × Cursor} (h : respacing.InStep R found found')
    (hR : ∀ a b, R a b → view b = view a) : EndAlike view found found' := by
  cases h with
  | ok answer cursor => exact ⟨cursor.warnings, .inl ⟨_, _, rfl, rfl, hR _ _ answer, cursor.names⟩⟩
  | error blame cursor => exact ⟨cursor.warnings, .inr ⟨_, _, rfl, rfl, blame⟩⟩

theorem respacing_ofTokens {w x : List Token} (h : Respaced w x) (limit : Nat) :
    RespacedCursors (ofTokens w limit) (ofTokens x limit) := by
  have hend (w : List Token) : ∃ y, AtEnd y ∧ (ofTokens w limit).ahead = w ++ y := by
    unfold ofTokens
    split
    · exact ⟨[], rfl, (List.append_nil w).symm⟩
    · exact ⟨[.missingEof], rfl, rfl⟩
  obtain ⟨y, hy, ha⟩ := hend w
  obtain ⟨z, hz, ha'⟩ := hend x
  refine ⟨⟨false, ?_⟩, rfl, rfl, rfl, rfl, rfl⟩
  rw [ha, ha']
  exact matches_of_outline h hy hz

theorem bare_of_traits (t t' : Trait) (h : respacing.Traits t t') : t'.bare = t.bare := by
  rw [Trait.bare, Trait.bare, h.name, h.kind, h.value]

theorem bare_of_statements (s s' : Apply) (h : respacing.Statements s s') : s'.bare = s.bare := by
  rw [Apply.bare, Apply.bare, h.target, map_eq_of_forall₂ h.traits bare_of_traits]

/-- Tokens with the same outline are read alike in every way there is to read them, unless names
stand for other things in other places. -/
theorem which_trivia_stand_between_tokens_does_not_matter {w x : List Token} (h : Respaced w x)
    {r : Resolver} (hr : r.IgnoresPlaces) (limit : Nat) :
    let c := ofTokens w limit
    let c' := ofTokens x limit
    (∀ given, EndAlike (Node.bare id) (Node.read r given c) (Node.read r given c')) ∧
      EndAlike Trait.bare (Trait.read r c) (Trait.read r c') ∧
      EndAlike (List.map Trait.bare) (Trait.readAll r c) (Trait.readAll r c') ∧
      EndAlike (List.map Trait.bare) (Trait.readLeading r c) (Trait.readLeading r c') ∧
      EndAlike Apply.bare (Apply.read r c) (Apply.read r c') ∧
      EndAlike (List.map Apply.bare) (Apply.readAll r c) (Apply.readAll r c') := by
  intro c c'
  have hstart := respacing_ofTokens h limit
  have hS := respacing_kept hr
  have htrivia {c c' : Cursor} (h : respacing.cursor c c') :
      respacing.cursor c.skipTrivia c'.skipTrivia :=
    RespacedCursors.skipTrivia h
  have htarget {c c' : Cursor} (h : respacing.cursor c c') :
      respacing.InStep Eq (Apply.readTarget c) (Apply.readTarget c') := RespacedCursors.target h
  have htraits (ts ts' : List Trait) (h : List.Forall₂ respacing.Traits ts ts') :
      ts'.map Trait.bare = ts.map Trait.bare := map_eq_of_forall₂ h bare_of_traits
  refine ⟨fun given => ?_, ?_, ?_, ?_, ?_, ?_⟩
  · have hgiven : Option.Rel respacing.place given given := by
      cases given with
      | none => exact .none
      | some l => exact .some trivial
    exact endAlike_of_inStep (hS.value hgiven hstart) fun _ _ hn => hn
  · exact endAlike_of_inStep (hS.trait hstart) bare_of_traits
  · exact endAlike_of_inStep (hS.traits hstart) htraits
  · exact endAlike_of_inStep (hstart.leading hr) htraits
  · exact endAlike_of_inStep (hS.statement htrivia htarget hstart) bare_of_statements
  · exact endAlike_of_inStep (hS.document htrivia htarget hstart) fun _ _ hss =>
      map_eq_of_forall₂ hss bare_of_statements

/-- The comma in `[a, 2]` can be left out, whether the name is kept or stands for a value. -/
theorem a_comma_can_be_a_blank :
    let w := (Source.mk [] (utf8 "[a, 2]")).tokens
    let x := (Source.mk [] (utf8 "[a 2]")).tokens
    let c := ofTokens w 64
    let c' := ofTokens x 64
    let always : Resolver := .fixed (.boolean .nowhere true)
    Respaced w x ∧ Resolver.forward.IgnoresPlaces ∧ always.IgnoresPlaces ∧
      EndAlike (Node.bare id) (Node.read .forward none c) (Node.read .forward none c') ∧
      EndAlike (Node.bare id) (Node.read always none c) (Node.read always none c') ∧
      (Node.read .forward none c).1.toOption.map Node.text = some (utf8 "[\"a\",2]") ∧
      (Node.read always none c).1.toOption.map Node.text = some (utf8 "[true,2]") := by
  intro w x c c' always
  have h : Respaced w x := by decide +kernel
  have hforward := Resolver.forward_ignoresPlaces
  have halways : always.IgnoresPlaces := Resolver.fixed_ignoresPlaces _
  exact ⟨h, hforward, halways,
    (which_trivia_stand_between_tokens_does_not_matter h hforward 64).1 none,
    (which_trivia_stand_between_tokens_does_not_matter h halways 64).1 none, by decide +kernel,
    by decide +kernel⟩

end Law

end ShapeTraits
