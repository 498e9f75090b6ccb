-- What may stand before a shape: traits, and documentation before them. The documentation
-- of the gap at the cursor becomes one trait, which comes last, and documentation behind
-- the gap becomes no trait and part of none.
import Mathlib
import ShapeTraits.Proofs.DocumentationLedger
import ShapeTraits.Proofs.Lines
import ShapeTraits.Proofs.Simulation
import ShapeTraits.Proofs.Tiling

namespace ShapeTraits

open Cursor Grammar

/-! ## Lines of documentation -/

namespace Scan

/-- If it is documentation, it is one line. -/
def OneLine (found : Scan) : Prop := ∀ line, found.content = .docComment line → Byte.lineFeed ∉ line

variable {text : Bytes}

theorem oneLine_of_ne {found : Scan} (h : (found.content.kind == .docComment) = false) :
    OneLine found := by
  intro line hline
  rw [hline] at h
  cases h

theorem comment_oneLine (text : Bytes) : OneLine (comment text) := by
  have hends : Byte.lineFeed ∉ text.takeWhile (!Byte.isLineEnd ·) :=
    fun hmem => absurd (List.mem_takeWhile_imp hmem) (by decide)
  unfold comment
  dsimp only
  generalize text.takeWhile (!Byte.isLineEnd ·) = line at hends
  cases line with
  | nil => exact oneLine_of_ne rfl
  | cons b line =>
    have hline : Byte.lineFeed ∉ line := fun hmem => hends (List.mem_cons_of_mem b hmem)
    dsimp only
    split
    · exact oneLine_of_ne rfl
    split
    · rintro _ ⟨⟩ hmem
      exact hline (List.mem_of_mem_drop hmem)
    · rintro _ ⟨⟩ hmem
      exact hline hmem

theorem next_oneLine (text : Bytes) : OneLine (next text) := by
  cases text with
  | nil => exact oneLine_of_ne rfl
  | cons first rest =>
    have hnext : next (first :: rest) = token first rest := rfl
    rw [hnext]
    rcases token_ordinary first rest with h | h | h
    · exact oneLine_of_ne ((by decide : ∀ k, isOrdinary k = true → (k == .docComment) = false) _ h)
    · rw [h, numeral]
      split
      · exact oneLine_of_ne rfl
      · exact oneLine_of_ne rfl
    · rw [h]
      exact comment_oneLine _

end Scan

theorem Source.oneLine_of_docLines {s : Source} {g : List Token} (hg : ∀ t ∈ g, t ∈ s.tokens) :
    ∀ line ∈ docLines g, Byte.lineFeed ∉ line := by
  intro line hline
  obtain ⟨t, ht, hsome⟩ := List.mem_filterMap.mp hline
  obtain ⟨k, rfl, -⟩ := Lexer.exists_of_mem_tokens (hg t ht)
  cases hcontent : k.token.content with
  | docComment said =>
    rw [hcontent] at hsome
    cases hsome
    exact Scan.next_oneLine k.ahead _ hcontent
  | _ =>
    rw [hcontent] at hsome
    cases hsome

/-! ## Documentation as a trait -/

/-- The documentation of a gap as a trait: all its lines, at the first of them. -/
def gapDocs? (g : List Token) : Option Trait :=
  (g.find? (·.kind == .docComment)).map fun t =>
    ⟨Trait.documentation, .string t.start (docText (docLines g)), .docComment, t.start⟩

/-- A trait is the documentation of a gap. -/
structure Documents (g : List Token) (t : Trait) : Prop where
  name : t.name = Trait.documentation
  kind : t.kind = .docComment
  first : (g.find? (·.kind == .docComment)).map Token.start = some t.location
  lines : ∃ text, t.value = .string t.location text ∧ Bytes.splitOn Byte.lineFeed text = docLines g

section Documentation

variable {c : Cursor} {g h v : List Token} {t : Token}

theorem gapDocs_of_trivia (hg : Trivia g) : gapDocs? g = none := by
  have hnone : g.find? (·.kind == .docComment) = none := by
    refine List.find?_eq_none.mpr fun t ht hdoc => ?_
    rw [beq_iff_eq] at hdoc
    have htrivia := hg t ht
    rw [hdoc] at htrivia
    cases htrivia
  rw [gapDocs?, hnone]
  rfl

theorem docLines_cons_ne_nil (ht : t.kind = .docComment) : docLines (t :: g) ≠ [] := by
  obtain ⟨line, hline⟩ := Token.kind_eq_docComment.mp ht
  rw [← List.singleton_append, docLines_append, docLines_of_doc hline]
  exact List.cons_ne_nil _ _

theorem gapDocs_of_doc (hh : Trivia h) (ht : t.kind = .docComment) : gapDocs? (h ++ t :: g) =
    some ⟨Trait.documentation, .string t.start (docText (docLines (t :: g))), .docComment,
      t.start⟩ := by
  have hnone : h.find? (·.kind == .docComment) = none :=
    Option.map_eq_none_iff.mp (gapDocs_of_trivia hh)
  rw [gapDocs?, List.find?_append, hnone, Option.none_or,
    List.find?_cons_of_pos (p := fun t : Token => t.kind == .docComment) (beq_iff_eq.mpr ht),
    docLines_append, docLines_of_trivia hh, List.nil_append]
  rfl

/-- All the documentation of the gap is taken, and nothing else is read. -/
theorem readDocs_of_gap (hg : Gap g) (ha : c.ahead = g ++ v) (hv : NotNext Token.Kind.isGap v)
    (hdocs : c.docs = []) : Trait.readDocs c =
      (.ok (gapDocs? g), { c with passed := g.reverse ++ c.passed, ahead := v, docs := [] }) := by
  have hnot : ∀ k : Token.Kind, k.isGap = false → k.isTrivia = false := by decide
  -- Only trivia, or trivia up to the first line of documentation, where the rest is taken.
  rcases trivia_or_content g with htrivia | ⟨h, t, k, rfl, hh, ht⟩
  · have hskip := skipTrivia_of_trivia htrivia ha (hv.imp hnot)
    have hk : c.skipTrivia.kind ≠ .docComment := by
      have hkind : c.skipTrivia.kind.isGap = false := by
        rw [hskip]
        exact NotNext.kind (c := { c with passed := _, ahead := v }) hv rfl
      intro hdoc
      rw [hdoc] at hkind
      cases hkind
    rw [Trait.readDocs_apply, if_neg hk, gapDocs_of_trivia htrivia, hskip, ← hdocs]
  · have hdoc : t.kind = .docComment :=
      (Token.Kind.isGap_iff.mp (hg t (List.mem_append_right h List.mem_cons_self))).resolve_left
        (by rw [ht]; decide)
    have hk : Gap (t :: k) := fun u hu => hg u (List.mem_append_right h hu)
    rw [List.append_assoc] at ha
    have hskip := skipTrivia_of_trivia hh ha (notNext_cons ht)
    have hahead : c.skipTrivia.ahead = t :: k ++ v := by rw [hskip]
    have hgap := skipGap_of_gap hk hahead hv
    have hlines : c.skipTrivia.skipGap.docs = docLines (t :: k) := by
      rw [hgap, hskip]
      exact congrArg (· ++ docLines (t :: k)) hdocs
    have htake : c.skipTrivia.skipGap.takeDocs =
        (some (docText (docLines (t :: k))), { c.skipTrivia.skipGap with docs := [] }) := by
      rw [Cursor.takeDocs, hlines, if_neg (docLines_cons_ne_nil hdoc)]
      rfl
    rw [Trait.readDocs_apply, if_pos ((kind_of_ahead hahead).trans hdoc), htake,
      gapDocs_of_doc hh hdoc, hgap, hskip,
      location_of_ahead (c := { c with passed := _, ahead := t :: k ++ v }) rfl,
      List.reverse_append, List.append_assoc]
    rfl

theorem documents_of_gapDocs {s : Source} {u : Trait} (hg : ∀ t ∈ g, t ∈ s.tokens)
    (h : gapDocs? g = some u) :
    Documents g u := by
  obtain ⟨t, hfind, rfl⟩ := Option.map_eq_some_iff.mp h
  have hdoc : t.kind = .docComment :=
    beq_iff_eq.mp (List.find?_some (p := fun t : Token => t.kind == .docComment) hfind)
  have hne : docLines g ≠ [] := by
    obtain ⟨line, hline⟩ := Token.kind_eq_docComment.mp hdoc
    exact List.ne_nil_of_mem
      (List.mem_filterMap.mpr ⟨t, List.mem_of_find?_eq_some hfind, by rw [hline]⟩)
  exact ⟨rfl, rfl, by rw [hfind]; rfl, _, rfl,
    Bytes.splitOn_joinWith hne (Source.oneLine_of_docLines hg)⟩

theorem no_docs_of_gapDocs (h : gapDocs? g = none) : ∀ t ∈ g, t.kind ≠ .docComment := by
  intro t ht hdoc
  exact List.find?_eq_none.mp (Option.map_eq_none_iff.mp h) t ht (beq_iff_eq.mpr hdoc)

end Documentation

/-! ## Signs -/

/-- Where the signs of traits stand among some tokens. -/
def signs (w : List Token) : List Location := (w.filter (·.kind == .at)).map Token.start

section Signs

variable {v w : List Token} {t : Token}

@[simp] theorem signs_nil : signs [] = [] := rfl

@[simp] theorem signs_append (v w : List Token) : signs (v ++ w) = signs v ++ signs w := by
  rw [signs, List.filter_append, List.map_append]
  rfl

theorem signs_cons_of_sign (h : t.kind = .at) : signs (t :: w) = t.start :: signs w := by
  rw [signs, List.filter_cons_of_pos (by rw [h]; rfl)]
  rfl

theorem signs_cons_of_ne (h : t.kind ≠ .at) : signs (t :: w) = signs w := by
  rw [signs, List.filter_cons_of_neg (by rw [beq_iff_eq]; exact h)]
  rfl

theorem signs_of_kind {k : Token.Kind} (h : t.kind = k) (hk : k ≠ .at := by decide) :
    signs (t :: w) = signs w := signs_cons_of_ne (h ▸ hk)

theorem signs_of_gap (h : Gap w) : signs w = [] := by
  have hnone : w.filter (·.kind == .at) = [] := by
    refine List.filter_eq_nil_iff.mpr fun t ht hsign => ?_
    have hgap := h t ht
    rw [beq_iff_eq.mp hsign] at hgap
    cases hgap
  rw [signs, hnone, List.map_nil]

end Signs

namespace Grammar

variable {w : List Token} {n : Node} {text : Bytes} {refs : List Reference}

/-- The signs of many things are those of each. -/
theorem Many.signs {α : Type} {P : Form α} {as : List α} {f : α → List Location}
    (h : Many P w as refs) (hP : ∀ v a r, P v a r → signs v = f a) : signs w = as.flatMap f := by
  induction h with
  | nil => rfl
  | cons first gap _ ih =>
    rw [signs_append, signs_append, hP _ _ _ first, signs_of_gap gap, List.append_nil, ih,
      List.flatMap_cons]

theorem Id.signs (h : Id w text) : signs w = [] := by
  have hsegments {w : List Token} {a : Bytes} (h : Segments w a) : ShapeTraits.signs w = [] := by
    induction h with
    | nil => rfl
    | cons sign isName _ ih => rw [signs_of_kind sign, signs_of_kind isName, ih]
  have hpart {kind : Token.Kind} {sign : Bytes} {w : List Token} {a : Bytes} (hkind : kind ≠ .at)
      (h : Part kind sign w a) : ShapeTraits.signs w = [] := by
    cases h with
    | absent => rfl
    | present isSign isName => rw [signs_of_kind isSign hkind, signs_of_kind isName, signs_nil]
  cases h with
  | mk isName segments shape member =>
    rw [signs_of_kind isName, signs_append, signs_append, hsegments segments,
      hpart (by decide) shape, hpart (by decide) member]
    rfl

theorem Member.signs {V : Form Node} {e : Entry Node} (h : Member V w e refs)
    (hV : ∀ v n r, V v n r → signs v = []) : signs w = [] := by
  cases h with
  | @mk k _ _ _ _ _ _ _ isKey before isColon behind value =>
    have hkey : k.kind ≠ .at := by
      intro hk
      have hmem := isKey.kind_mem
      rw [hk] at hmem
      exact absurd hmem (by decide)
    rw [signs_cons_of_ne hkey, signs_append, signs_of_gap before, signs_of_kind isColon,
      signs_append, signs_of_gap behind, hV _ _ _ value]
    rfl

theorem signs_enclosed {l r : Token} {g : List Token} {opening closing : Token.Kind}
    (hl : l.kind = opening)
    (hopening : opening ≠ .at) (hg : Gap g) (hw : signs w = []) (hr : r.kind = closing)
    (hclosing : closing ≠ .at) : signs (l :: (g ++ w ++ [r])) = [] := by
  rw [signs_of_kind hl hopening, signs_append, signs_append, signs_of_gap hg, hw,
    signs_of_kind hr hclosing]
  rfl

theorem signs_content {t : Token} {content : Token.Content} (h : t.content = content)
    (hne : content.kind ≠ .at := by simp [Token.Content.kind]) : signs [t] = [] :=
  signs_cons_of_ne (by rwa [Token.kind, h])

/-- No trait is applied inside a value. -/
theorem Value.signs (h : Value w n refs) : signs w = [] := by
  refine Value.byParts (motive := fun w _ _ => ShapeTraits.signs w = []) ?string ?textBlock
    ?number ?id ?object
    ?array h
  case string =>
    intro t text hcontent
    exact signs_content hcontent
  case textBlock =>
    intro t text hcontent
    exact signs_content hcontent
  case number =>
    intro t value hcontent
    exact signs_content hcontent
  case id =>
    intro t w text hid
    exact hid.signs
  case object =>
    intro l r g w entries refs hopen hg hm hclose
    refine signs_enclosed hopen (by decide) hg ?_ hclose (by decide)
    rw [hm.signs (f := fun _ => []) fun _ _ _ he => he.signs fun _ _ _ hn => hn]
    exact List.flatMap_eq_nil_iff.mpr fun _ _ => rfl
  case array =>
    intro l r g w items refs hopen hg hm hclose
    refine signs_enclosed hopen (by decide) hg ?_ hclose (by decide)
    rw [hm.signs (f := fun _ => []) fun _ _ _ hn => hn]
    exact List.flatMap_eq_nil_iff.mpr fun _ _ => rfl

theorem Body.signs {place : Location} (h : Body place w n refs) : signs w = [] := by
  cases h with
  | object _ value | array _ value => exact value.signs
  | textBlock h | number h | string h | name h => exact signs_content h
  | members hm =>
    rw [hm.signs (f := fun _ => []) fun _ _ _ he => he.signs fun _ _ _ hn => hn.signs]
    exact List.flatMap_eq_nil_iff.mpr fun _ _ => rfl

/-- A trait has one sign, where it stands. -/
theorem Trait.signs {t : ShapeTraits.Trait} (h : Trait w t refs) : signs w = [t.location] := by
  cases h with
  | bare isSign isId => rw [signs_cons_of_sign isSign, isId.signs]
  | empty isSign isId opens gap closes =>
    rw [signs_cons_of_sign isSign, signs_append, isId.signs, signs_of_kind opens, signs_append,
      signs_of_gap gap, signs_of_kind closes]
    rfl
  | value isSign isId opens gap body behind closes =>
    rw [signs_cons_of_sign isSign, signs_append, isId.signs, signs_of_kind opens, signs_append,
      signs_append, signs_append, signs_of_gap gap, body.signs, signs_of_gap behind,
      signs_of_kind closes]
    rfl

theorem Trait.kind {t : ShapeTraits.Trait} (h : Trait w t refs) :
    t.kind = .bare ∨ t.kind = .value := by
  cases h with
  | bare | empty => exact .inl rfl
  | value => exact .inr rfl

end Grammar

/-! ## Gaps behind traits -/

/-- The same token, or both of a gap. -/
def SameOrGap (t u : Token) : Prop := u = t ∨ t.kind.isGap = true ∧ u.kind.isGap = true

/-- Before the same tokens, up to those of gaps. -/
structure AroundGaps (c c' : Cursor) : Prop where
  ahead : List.Forall₂ SameOrGap c.ahead c'.ahead
  limit : c'.limit = c.limit
  depth : c'.depth = c.depth

/-- Places count, values only if they should be the same, and errors do not. -/
def upToGaps (same : Prop) : Relations where
  cursor := AroundGaps
  place l l' := l' = l
  node n n' := same → n' = n
  blame _ _ := True

section Gaps

variable {c c' : Cursor} {same : Prop} {r r' : Resolver}

theorem SameOrGap.isGap_eq {t u : Token} (h : SameOrGap t u) : u.kind.isGap = t.kind.isGap := by
  rcases h with rfl | ⟨ht, hu⟩
  · rfl
  · rw [ht, hu]

theorem notNext_of_sameOrGap {v w : List Token} (h : List.Forall₂ SameOrGap v w)
    (hv : NotNext Token.Kind.isGap v) : NotNext Token.Kind.isGap w := by
  cases h with
  | nil => exact hv
  | cons htu _ => exact notNext_cons (htu.isGap_eq.trans hv.head)

/-- Behind the gaps the tokens are the same up to gaps again. -/
theorem sameOrGap_dropWhile {v w : List Token} (h : List.Forall₂ SameOrGap v w) :
    List.Forall₂ SameOrGap (v.dropWhile fun t => t.kind.isGap)
      (w.dropWhile fun t => t.kind.isGap) := by
  induction h with
  | nil => exact .nil
  | @cons t u v w htu hvw ih =>
    rw [List.dropWhile_cons, List.dropWhile_cons, htu.isGap_eq]
    by_cases ht : t.kind.isGap = true
    · rwa [if_pos ht, if_pos ht]
    · rw [if_neg ht, if_neg ht]
      exact .cons htu hvw

theorem notNext_skipGap (c : Cursor) : NotNext Token.Kind.isGap c.skipGap.ahead := by
  intro t ht
  obtain ⟨rest, ha⟩ := List.head?_eq_some_iff.mp ht
  rw [← kind_of_ahead ha]
  exact skipGap_stops c

theorem AroundGaps.sight (h : AroundGaps c c') :
    Sight (fun l l' => l' = l) c.current c'.current := by
  have hahead := h.ahead
  generalize ha : c.ahead = w at hahead
  generalize ha' : c'.ahead = x at hahead
  rw [Cursor.current, Cursor.current, ha, ha']
  cases hahead with
  | nil => exact .same rfl rfl
  | cons htu _ =>
    rcases htu with rfl | ⟨ht, hu⟩
    · exact .same rfl rfl
    · exact .blank (.inl ht) (.inl hu)

theorem AroundGaps.advance (h : AroundGaps c c') (hk : c.kind.isIdle = false) :
    AroundGaps c.advance c'.advance := by
  obtain ⟨hgap, -, hend⟩ := Token.Kind.isIdle_eq_false.mp hk
  have hahead := h.ahead
  have ha := ahead_eq_cons hend
  rw [ha] at hahead
  obtain ⟨u, w, htu, hrest, ha'⟩ := List.forall₂_cons_left_iff.mp hahead
  rcases htu with rfl | ⟨ht, -⟩
  · have hmove := moved_advance_of_ahead ha hend
    have hmove' := moved_advance_of_ahead ha' hend
    refine ⟨?_, hmove'.limit.trans (h.limit.trans hmove.limit.symm),
      hmove'.depth.trans (h.depth.trans hmove.depth.symm)⟩
    rwa [advance_ahead_of ha hend, advance_ahead_of ha' hend]
  · exact absurd (ht.symm.trans hgap) (by decide)

theorem AroundGaps.skipGap (h : AroundGaps c c') : AroundGaps c.skipGap c'.skipGap := by
  have hmove := moved_skipGap c
  have hmove' := moved_skipGap c'
  refine ⟨?_, hmove'.limit.trans (h.limit.trans hmove.limit.symm),
    hmove'.depth.trans (h.depth.trans hmove.depth.symm)⟩
  rw [Cursor.skipGap, Cursor.skipGap, skip_ahead rfl, skip_ahead rfl]
  exact sameOrGap_dropWhile h.ahead

theorem AroundGaps.resolve (h : AroundGaps c c') (hr : same → r' = r) (name : Bytes)
    (l : Location) :
    (upToGaps same).InStep (upToGaps same).node (r.resolve name l c) (r'.resolve name l c') := by
  obtain ⟨n, hn⟩ := r.resolve_ok name l
  obtain ⟨n', hn'⟩ := r'.resolve_ok name l
  obtain ⟨d, hd, hahead, hlimit, hdepth⟩ := hn c
  obtain ⟨d', hd', hahead', hlimit', hdepth'⟩ := hn' c'
  rw [hd, hd']
  refine .ok (fun hsame => ?_) ⟨by rw [hahead, hahead']; exact h.ahead, ?_, ?_⟩
  · obtain rfl := hr hsame
    obtain ⟨e, he, -⟩ := hn' c
    exact (Except.ok.inj (Prod.mk.inj (hd.symm.trans he)).1).symm
  · rw [hlimit, hlimit', h.limit]
  · rw [hdepth, hdepth', h.depth]

theorem forall₂_eq {α : Type} {as bs : List α} (h : List.Forall₂ (fun a b => b = a) as bs) :
    bs = as := by
  have hflip : List.Forall₂ Eq bs as := List.Forall₂.flip h
  rwa [List.forall₂_eq_eq_eq] at hflip

theorem eq_of_members {m m' : KeyedList Node} (h : (upToGaps same).Members m m') (hsame : same) :
    m' = m := by
  have hentry (e e' : Entry Node) (he : (upToGaps same).Entries e e') : e' = e := by
    obtain ⟨key, place, value⟩ := e
    obtain ⟨key', place', value'⟩ := e'
    obtain ⟨rfl, rfl, hvalue⟩ := he
    exact congrArg (Entry.mk key' place') (hvalue hsame)
  obtain ⟨entries⟩ := m
  obtain ⟨entries'⟩ := m'
  exact congrArg KeyedList.mk (forall₂_eq (h.imp hentry))

theorem upToGaps_kept (same : Prop) (r r' : Resolver) (hr : same → r' = r) :
    (upToGaps same).Kept r r' where
  sight h := h.sight
  limit h := h.limit
  depth h := h.depth
  advance h := h.advance
  skipGap h := h.skipGap
  note _ _ h := ⟨h.ahead, h.limit, h.depth⟩
  enter h := ⟨h.ahead, h.limit, congrArg (· + 1) h.depth⟩
  leave h := ⟨h.ahead, h.limit, congrArg (· - 1) h.depth⟩
  refuse _ _ _ _ := trivial
  tooDeep _ := trivial
  twice _ _ _ := trivial
  null hl _ := congrArg Node.null hl
  number value hl _ := congrArg (Node.number · value) hl
  string text hl _ := congrArg (Node.string · text) hl
  array {l l' items items'} hl h hsame := by
    have hitems : items' = items := forall₂_eq (h.imp fun _ _ hn => hn hsame)
    rw [hitems]
    exact congrArg (Node.array · items) hl
  object {l l' m m'} hl h hsame := by
    rw [eq_of_members h hsame]
    exact congrArg (Node.object · m) hl
  resolve {l l' c c'} name hl h := by
    obtain rfl : l' = l := hl
    exact h.resolve hr name l'

end Gaps

theorem Trait.eq_of_same (t u : Trait) (h : (upToGaps True).Traits t u) : u = t := by
  obtain ⟨name, value, kind, place⟩ := t
  obtain ⟨name', value', kind', place'⟩ := u
  obtain ⟨rfl, rfl, hvalue, rfl⟩ := h
  exact congrArg (Trait.mk name' · kind' place') (hvalue trivial)

/-! ## Traits in a row -/

/-- What a trait is but for its value. -/
def Trait.head (t : Trait) : Bytes × Trait.Kind × Location := (t.name, t.kind, t.location)

/-- Traits as they are applied in some tokens: each at its own sign, and all but for their
values, which are a matter of what names stand for, as the grammar derives them. -/
structure Applied (r : Resolver) (w : List Token) (ts : List Trait) : Prop where
  written : ∀ t ∈ ts, t.kind = .bare ∨ t.kind = .value
  places : ts.map (·.location) = signs w
  derived : ∃ records refs, Many Grammar.Trait w records refs ∧
    ts.map Trait.head = records.map Trait.head ∧ (r = .forward → ts = records)

section Rows

variable {c d : Cursor} {r : Resolver} {ts : List Trait}

theorem Trait.readAll_stops (hgap : c.kind.isGap = false) (h : readAll r c = (.ok ts, d)) :
    d.kind.isGap = false ∧ d.kind ≠ .at := by
  have hpass := (passes_trait r).gather
  refine ⟨?_, ?_⟩
  · rcases Reading.untilKind_ends hpass h with rfl | ⟨as, e, bs, hlast⟩
    · exact hgap
    · obtain ⟨t, f, -, hrest⟩ := Reading.bind_eq_ok.mp hlast
      cases hrest
      exact skipGap_stops f
  · have hstop := Reading.untilKind_stops hpass h
    rwa [bne_iff_ne] at hstop

/-- Whatever names stand for, the same tokens are passed, and the traits are the same but
for their values. -/
theorem Trait.readAll_forward (h : readAll r c = (.ok ts, d)) : ∃ records e,
    readAll .forward c = (.ok records, e) ∧ ts.map head = records.map head ∧
      (r = .forward → ts = records) ∧ e.ahead = d.ahead := by
  have hsame : AroundGaps c c := ⟨List.forall₂_same.mpr fun _ _ => .inl rfl, rfl, rfl⟩
  have hforward := (upToGaps_kept False r .forward False.elim).traits hsame
  -- Both runs stop at ends of the same tokens, and these ends are equally long.
  have hle (q : Resolver) : (readAll q c).2.ahead <:+ c.ahead :=
    (Composed.traits trivial q).keeps (kept_suffix c.ahead) c (List.suffix_refl _)
  have hsuffix := hle r
  have hsuffix' := hle .forward
  have heq : r = .forward → readAll .forward c = (.ok ts, d) := fun hr => hr ▸ h
  rw [h] at hforward hsuffix
  generalize readAll .forward c = found at hforward hsuffix' heq
  cases hforward with
  | @ok _ records _ e answer cursor =>
    refine ⟨records, e, rfl, ?_, fun hr => ?_, ?_⟩
    · exact (map_eq_of_forall₂ answer fun t u ht => by
        rw [head, head, ht.name, ht.kind, ht.location]).symm
    · exact (Except.ok.inj (Prod.mk.inj (heq hr)).1).symm
    · exact (List.suffix_of_suffix_length_le hsuffix' hsuffix
        cursor.ahead.length_eq.ge).eq_of_length
        cursor.ahead.length_eq.symm

/-- Traits are read as they are applied in the tokens that are passed. -/
theorem Trait.readAll_applied (h : readAll r c = (.ok ts, d)) :
    ∃ w, c.ahead = w ++ d.ahead ∧ Applied r w ts := by
  obtain ⟨records, e, hforward, hheads, heq, hahead⟩ := readAll_forward h
  obtain ⟨-, as, w, refs, hmany, hview, -, hmove⟩ :=
    (reads_next (c.limit - c.depth)).sound_loop begins_within rfl hforward
  obtain rfl : records = as := hview
  have hderived := (many_within.mp hmany).1
  have hlocations : ts.map (·.location) = records.map (·.location) := by
    have := congrArg (List.map fun h : Bytes × Trait.Kind × Location => h.2.2) hheads
    rwa [List.map_map, List.map_map] at this
  refine ⟨w, hahead ▸ hmove.ahead, fun t ht => ?_, ?_, records, refs, hderived, hheads, heq⟩
  · obtain ⟨u, hu, hhead⟩ := List.mem_map.mp (hheads ▸ List.mem_map_of_mem ht)
    rw [← (Prod.mk.inj (Prod.mk.inj hhead).2).1]
    exact hderived.forall (p := fun t => t.kind = .bare ∨ t.kind = .value)
      (fun _ _ _ h => h.kind) u hu
  · rw [hlocations, hderived.signs (f := fun t => [t.location]) fun _ _ _ h => h.signs,
      List.map_eq_flatMap]

end Rows

/-- Gaps behind the documentation do not matter. -/
theorem Trait.readBehindDocs_same {c c' d : Cursor} {r : Resolver} {docs : Option Trait}
    {ts : List Trait} (h : readBehindDocs r docs c = (.ok ts, d)) (hc : AroundGaps c c') :
    (readBehindDocs r docs c').1 = .ok ts := by
  have hdocs : Option.Rel (upToGaps True).Traits docs docs := by
    cases docs with
    | none => exact .none
    | some t => exact .some ⟨rfl, rfl, fun _ => rfl, rfl⟩
  have hsame := (upToGaps_kept True r r fun _ => rfl).behindDocs hdocs hc
  rw [h] at hsame
  generalize readBehindDocs r docs c' = found at hsame
  cases hsame with
  | ok answer _ => exact congrArg Except.ok (forall₂_eq (answer.imp eq_of_same))

/-! ## The law -/

/-- Leading traits are the traits that are applied behind the gap at the cursor, and then
its documentation, if it has any. What gaps there are behind that one does not matter. -/
theorem leading_traits_are_those_applied_and_then_the_documentation_before_them {s : Source}
    {c d : Cursor} {r : Resolver} {ts : List Trait} (hc : c.tokens = s.tokens) (hdocs : c.docs = [])
    (h : Trait.readLeading r c = (.ok ts, d)) :
    let gap := c.ahead.takeWhile fun t => t.kind.isGap
    ∃ w applied docs, c.ahead = gap ++ (w ++ d.ahead) ∧ ts = applied ++ docs ∧ Applied r w applied ∧
      (docs = [] ∧ (∀ t ∈ gap, t.kind ≠ .docComment) ∨ ∃ t, docs = [t] ∧ Documents gap t) ∧
      (∀ x, List.Forall₂ SameOrGap (w ++ d.ahead) x →
        (Trait.readLeading r { c with ahead := gap ++ x }).1 = .ok ts) ∧
      d.kind.isGap = false ∧ d.kind ≠ .at := by
  intro gap
  have hgap : Gap gap := gap_ahead c
  have ha : c.ahead = gap ++ c.skipGap.ahead := (moved_skipGap c).ahead
  have hnext := notNext_skipGap c
  have hmem : ∀ t ∈ gap, t ∈ s.tokens := fun t ht =>
    hc ▸ List.mem_append_right _ ((List.takeWhile_prefix _).subset ht)
  generalize c.skipGap.ahead = v at ha hnext
  rw [Trait.readLeading_eq, Reading.bind_of_ok (readDocs_of_gap hgap ha hnext hdocs)] at h
  obtain ⟨applied, e, hall, hrest⟩ := Reading.bind_eq_ok.mp h
  obtain ⟨hstop, hsign⟩ := Trait.readAll_stops (NotNext.kind hnext rfl) hall
  obtain ⟨w, hw, happlied⟩ := Trait.readAll_applied hall
  have hd : e.skipGap = e := skip_stay hstop
  rw [Reading.skipGap_bind, hd] at hrest
  cases hrest
  refine ⟨w, applied, (gapDocs? gap).toList, hw ▸ ha, rfl, happlied, ?_, fun x hx => ?_,
    hstop, hsign⟩
  · cases hgapDocs : gapDocs? gap with
    | none => exact .inl ⟨rfl, no_docs_of_gapDocs hgapDocs⟩
    | some t => exact .inr ⟨t, rfl, documents_of_gapDocs hmem hgapDocs⟩
  · rw [← hw] at hx
    have hread := readDocs_of_gap (c := { c with ahead := gap ++ x }) hgap rfl
      (notNext_of_sameOrGap hx hnext) hdocs
    rw [Trait.readLeading_eq, Reading.bind_of_ok hread]
    exact Trait.readBehindDocs_same h ⟨hx, rfl, rfl⟩

/-- The lines before two traits document the shape, but not the line between the traits. -/
theorem only_the_lines_before_two_traits_become_one :
    let s := Source.mk [] (utf8 "/// a\n/// b\n@t\n/// c\n@u(1) x")
    let c := ofTokens s.tokens 64
    c.tokens = s.tokens ∧ c.docs = [] ∧ ∃ ts d applied t,
      Trait.readLeading .forward c = (.ok ts, d) ∧
      ts.map Trait.name = [utf8 "t", utf8 "u", Trait.documentation] ∧ ts = applied ++ [t] ∧
      Documents (c.ahead.takeWhile fun t => t.kind.isGap) t ∧
        t.value.string? = some (utf8 "a\nb") := by
  intro s c
  have hc : c.tokens = s.tokens := by decide +kernel
  have hview : (Trait.readLeading .forward c).1.toOption.map
      (fun ts => (ts.map Trait.name, (ts.getLast?.bind (·.value.string?)))) =
        some ([utf8 "t", utf8 "u", Trait.documentation], some (utf8 "a\nb")) := by decide +kernel
  obtain ⟨ts, hread, hts⟩ := Reading.ok_of_view hview
  obtain ⟨hnames, htext⟩ := Prod.mk.inj hts
  obtain ⟨w, applied, docs, -, hsplit, -, hdocs, -⟩ :=
    leading_traits_are_those_applied_and_then_the_documentation_before_them hc rfl hread
  rcases hdocs with ⟨-, hnone⟩ | ⟨t, rfl, ht⟩
  · exact absurd hnone (by decide +kernel)
  · rw [hsplit, List.getLast?_concat] at htext
    exact ⟨hc, rfl, ts, _, applied, t, hread, hnames, hsplit, ht, htext⟩

end ShapeTraits
