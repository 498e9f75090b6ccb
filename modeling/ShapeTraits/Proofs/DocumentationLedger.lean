-- Documentation is never lost unnoticed and never counted twice. What a cursor has passed
-- is a row of portions, each with a gap whose documentation was taken, or was refused with
-- a warning at the token behind the gap; and then the gap whose documentation waits.
import Mathlib
import ShapeTraits.Proofs.Composition
import ShapeTraits.Token.Lexer

namespace ShapeTraits

open Cursor Grammar

/-! ## Documentation in gaps -/

/-- The lines of the documentation among some tokens. -/
def docLines (w : List Token) : List Bytes :=
  w.filterMap fun t =>
    match t.content with
    | .docComment line => some line
    | _ => none

/-- Some lines as one text. -/
def docText (lines : List Bytes) : Bytes := Bytes.joinWith [Byte.lineFeed] lines

section Gaps

variable {t : Token} {c : Cursor} {g rest : List Token}

theorem docLines_append (v w : List Token) : docLines (v ++ w) = docLines v ++ docLines w :=
  List.filterMap_append

theorem docLines_of_doc {line : Bytes} (h : t.content = .docComment line) :
    docLines [t] = [line] := by
  simp [docLines, h]

theorem docLines_of_ne (h : t.kind ≠ .docComment) : docLines [t] = [] := by
  rw [Token.kind] at h
  cases hcontent : t.content with
  | docComment line =>
    rw [hcontent] at h
    exact absurd rfl h
  | _ => simp [docLines, hcontent]

theorem docLines_of_trivia (h : Trivia g) : docLines g = [] := by
  induction g with
  | nil => rfl
  | cons t g ih =>
    obtain ⟨ht, hg⟩ := List.forall_mem_cons.mp h
    have hne : t.kind ≠ .docComment := by
      intro hdoc
      rw [hdoc] at ht
      cases ht
    rw [← List.singleton_append, docLines_append, docLines_of_ne hne, ih hg, List.nil_append]

/-- Tokens are trivia only, or trivia before a first token of another kind. -/
theorem trivia_or_content (w : List Token) :
    Trivia w ∨ ∃ g t v, w = g ++ t :: v ∧ Trivia g ∧ t.kind.isTrivia = false := by
  induction w with
  | nil => exact .inl .nil
  | cons t w ih =>
    by_cases ht : t.kind.isTrivia = true
    · rcases ih with hw | ⟨g, u, v, rfl, hg, hu⟩
      · exact .inl (List.forall_mem_cons.mpr ⟨ht, hw⟩)
      · exact .inr ⟨t :: g, u, v, rfl, List.forall_mem_cons.mpr ⟨ht, hg⟩, hu⟩
    · exact .inr ⟨[], t, w, rfl, .nil, Bool.eq_false_iff.mpr ht⟩

/-- Of the tokens of a gap nothing is kept but the documentation. -/
theorem take_of_gap (h : t.kind.isGap = true) (c : Cursor) :
    c.take t = { c with docs := c.docs ++ docLines [t] } := by
  rcases Token.Kind.isGap_iff.mp h with htrivia | hdoc
  · rw [take_of_trivia htrivia, docLines_of_trivia fun u hu => List.mem_singleton.mp hu ▸ htrivia,
      List.append_nil]
  · obtain ⟨line, hline⟩ := Token.kind_eq_docComment.mp hdoc
    rw [take_of_doc hline, docLines_of_doc hline]

theorem skip_of_gap {among : Token.Kind → Bool} (hgap : ∀ k, among k = true → k.isGap = true)
    (hg : ∀ t ∈ g, among t.kind = true) (ha : c.ahead = g ++ rest) (hrest : NotNext among rest) :
    c.skip among =
      { c with passed := g.reverse ++ c.passed, ahead := rest, docs := c.docs ++ docLines g } := by
  have heof : among .eof = false := Bool.eq_false_iff.mpr fun h => by cases hgap _ h
  induction g generalizing c with
  | nil =>
    obtain rfl : c.ahead = rest := ha
    rw [skip_stay (hrest.kind heof), docLines, List.filterMap_nil, List.append_nil]
    rfl
  | cons t g ih =>
    obtain ⟨ht, hg⟩ := List.forall_mem_cons.mp hg
    have hne : t.kind ≠ .eof := by
      intro hend
      rw [hend, heof] at ht
      cases ht
    have hk := kind_of_ahead ha
    have hdocs : docLines (t :: g) = docLines [t] ++ docLines g := docLines_append [t] g
    have hpassed : (t :: g).reverse ++ c.passed = g.reverse ++ t :: c.passed := by
      rw [List.reverse_cons, List.append_assoc, List.singleton_append]
    rw [skip_step (by rw [hk]; exact hne) (by rw [hk]; exact ht), ih hg (advance_ahead_of ha hne),
      advance_of_ahead ha hne, take_of_gap (hgap _ ht), hdocs, hpassed, ← List.append_assoc]

theorem skipGap_of_gap (hg : Gap g) (ha : c.ahead = g ++ rest)
    (hrest : NotNext Token.Kind.isGap rest) :
    c.skipGap =
      { c with passed := g.reverse ++ c.passed, ahead := rest, docs := c.docs ++ docLines g } :=
  skip_of_gap (fun _ h => h) hg ha hrest

theorem skipTrivia_of_trivia (hg : Trivia g) (ha : c.ahead = g ++ rest)
    (hrest : NotNext Token.Kind.isTrivia rest) :
    c.skipTrivia = { c with passed := g.reverse ++ c.passed, ahead := rest } := by
  rw [skipTrivia, skip_of_gap (by decide) hg ha hrest, docLines_of_trivia hg, List.append_nil]

end Gaps

/-! ## Portions -/

/-- Tokens that were passed, with what became of the documentation among them. -/
inductive Portion where
  /-- A gap up to a token that takes no documentation. -/
  | upTo (g : List Token) (t : Token) (gap : Gap g) (ends : t.kind.isGap = false)
  /-- A gap whose documentation was taken. -/
  | taken (g : List Token) (gap : Gap g) (some : docLines g ≠ [])

namespace Portion

def tokens : Portion → List Token
  | upTo g t _ _ => g ++ [t]
  | taken g _ _ => g

/-- Documentation before a token that takes none is worth one warning, at that token. -/
def warnings : Portion → List Warning
  | upTo g t _ _ => if docLines g = [] then [] else [.strayDocs t.start]
  | taken _ _ _ => []

/-- The text of the documentation, if it was taken. -/
def text? : Portion → Option Bytes
  | upTo _ _ _ _ => none
  | taken g _ _ => some (docText (docLines g))

theorem warnings_upTo {g : List Token} {t : Token} (gap : Gap g) (ends : t.kind.isGap = false) :
    (upTo g t gap ends).warnings = if docLines g = [] then [] else [.strayDocs t.start] := rfl

end Portion

/-- What has been passed by a cursor is some portions and a gap that waits: its
documentation is that of the cursor, and there are no warnings but those of the portions. -/
structure Ledger (c : Cursor) (portions : List Portion) (waiting : List Token) : Prop where
  passed : c.passed.reverse = portions.flatMap Portion.tokens ++ waiting
  gap : Gap waiting
  docs : c.docs = docLines waiting
  warnings : c.warnings = portions.flatMap Portion.warnings

section Ledger

variable {c d : Cursor} {before : List Portion} {waiting : List Token} {t : Token}

/-! ## Steps -/

theorem ledger_ofTokens (tokens : List Token) (limit : Nat) :
    Ledger (ofTokens tokens limit) [] [] :=
  ⟨rfl, .nil, rfl, rfl⟩

theorem passed_advance (heof : c.kind ≠ .eof) :
    c.advance.passed.reverse = c.passed.reverse ++ [c.current] := by
  rw [(moved_advance heof).passed]
  exact List.reverse_cons

theorem advance_take (heof : c.kind ≠ .eof) : c.advance.docs = (c.take c.current).docs ∧
    c.advance.warnings = (c.take c.current).warnings := by
  rw [advance_of_ahead (ahead_eq_cons heof) heof]
  exact ⟨rfl, rfl⟩

/-- A token of a gap joins what waits. -/
theorem Ledger.advance_gap (h : Ledger c before waiting) (heof : c.kind ≠ .eof)
    (hgap : c.current.kind.isGap = true) : Ledger c.advance before (waiting ++ [c.current]) := by
  obtain ⟨hdocs, hwarnings⟩ := advance_take heof
  rw [take_of_gap hgap] at hdocs hwarnings
  refine ⟨?_, h.gap.append (fun t ht => List.mem_singleton.mp ht ▸ hgap), ?_,
    hwarnings.trans h.warnings⟩
  · rw [passed_advance heof, h.passed, List.append_assoc]
  · rw [hdocs, docLines_append, ← h.docs]

/-- Any other token ends a portion. -/
theorem Ledger.advance_upTo (h : Ledger c before waiting) (heof : c.kind ≠ .eof)
    (hgap : c.current.kind.isGap = false) :
    Ledger c.advance (before ++ [.upTo waiting c.current h.gap hgap]) [] := by
  obtain ⟨hdocs, hwarnings⟩ := advance_take heof
  rw [take_of_content hgap, dropDocs] at hdocs hwarnings
  refine ⟨?_, .nil, ?_, ?_⟩
  · rw [passed_advance heof, h.passed, List.flatMap_append, List.flatMap_singleton, List.append_nil,
      List.append_assoc]
    rfl
  · rw [hdocs]
    split
    · assumption
    · rfl
  · rw [hwarnings, List.flatMap_append, List.flatMap_singleton, Portion.warnings_upTo, ← h.docs,
      ← h.warnings]
    split
    · exact (List.append_nil _).symm
    · rfl

/-- What is taken is what waits. -/
theorem Ledger.takeDocs (h : Ledger c before waiting) :
    ∃ more rest, Ledger c.takeDocs.2 (before ++ more) rest ∧
      more.filterMap Portion.text? = c.takeDocs.1.toList := by
  rw [Cursor.takeDocs]
  by_cases hdocs : c.docs = []
  · rw [if_pos hdocs]
    exact ⟨[], waiting, by rwa [List.append_nil], rfl⟩
  · rw [if_neg hdocs]
    rw [h.docs] at hdocs
    refine ⟨[.taken waiting h.gap hdocs], [], ⟨?_, .nil, rfl, ?_⟩, ?_⟩
    · rw [List.flatMap_append, List.flatMap_singleton, List.append_nil]
      exact h.passed
    · rw [List.flatMap_append, List.flatMap_singleton]
      exact h.warnings.trans (List.append_nil _).symm
    · rw [h.docs]
      rfl

/-! ## Readings -/

/-- The ledger of a cursor goes on from some portions, without anything taken. -/
def GoesOn (before : List Portion) (c : Cursor) : Prop :=
  ∃ more waiting, Ledger c (before ++ more) waiting ∧ ∀ p ∈ more, p.text? = none

/-- Passing tokens, keeping names and changing levels takes no documentation. -/
theorem kept_goesOn (before : List Portion) : Kept (GoesOn before) where
  advance := by
    rintro c ⟨more, waiting, h, hnone⟩
    by_cases heof : c.kind = .eof
    · rw [advance_of_end heof]
      exact ⟨more, waiting, h, hnone⟩
    by_cases hgap : c.current.kind.isGap = true
    · exact ⟨more, _, h.advance_gap heof hgap, hnone⟩
    · rw [Bool.not_eq_true] at hgap
      refine ⟨more ++ [.upTo waiting c.current h.gap hgap], [], ?_, fun p hp => ?_⟩
      · rw [← List.append_assoc]
        exact h.advance_upTo heof hgap
      · rcases List.mem_append.mp hp with hp | hp
        · exact hnone p hp
        · rw [List.mem_singleton.mp hp]
          rfl
  record _ _ := fun ⟨more, waiting, h, hnone⟩ =>
    ⟨more, waiting, ⟨h.passed, h.gap, h.docs, h.warnings⟩, hnone⟩
  enter := fun ⟨more, waiting, h, hnone⟩ =>
    ⟨more, waiting, ⟨h.passed, h.gap, h.docs, h.warnings⟩, hnone⟩
  leave := fun ⟨more, waiting, h, hnone⟩ =>
    ⟨more, waiting, ⟨h.passed, h.gap, h.docs, h.warnings⟩, hnone⟩

theorem Ledger.goesOn (h : Ledger c before waiting) : GoesOn before c :=
  ⟨[], waiting, by rwa [List.append_nil], List.forall_mem_nil _⟩

end Ledger

/-! ## Sessions -/

/-- One thing to do with a cursor. -/
inductive Session.Step where
  | advance
  | skipTrivia
  | skipGap
  | takeDocs
  | value (r : Resolver) (given : Option Location)
  | shapeId
  | trait (r : Resolver)
  | traits (r : Resolver)
  | leading (r : Resolver)
  | statement (r : Resolver)
  | document (r : Resolver)

namespace Session

/-- The cursor afterwards, also after an error. -/
def Step.after : Step → Cursor → Cursor
  | advance, c => c.advance
  | skipTrivia, c => c.skipTrivia
  | skipGap, c => c.skipGap
  | takeDocs, c => c.takeDocs.2
  | value r given, c => (Node.read r given c).2
  | shapeId, c => (ShapeId.read c).2
  | trait r, c => (Trait.read r c).2
  | traits r, c => (Trait.readAll r c).2
  | leading r, c => (Trait.readLeading r c).2
  | statement r, c => (Apply.read r c).2
  | document r, c => (Apply.readAll r c).2

/-- The text of documentation that is taken by the way. Before leading traits it is that
of the trait that the documentation becomes. -/
def Step.taken : Step → Cursor → Option Bytes
  | takeDocs, c => c.takeDocs.1
  | leading _, c => (Trait.readDocs c).1.toOption.join.bind (·.value.string?)
  | _, _ => none

/-- Does one thing after another: the texts that were taken, and the cursor in the end. -/
def run : List Step → Cursor → List Bytes × Cursor
  | [], c => ([], c)
  | s :: rest, c =>
    let (texts, d) := run rest (s.after c)
    ((s.taken c).toList ++ texts, d)

section Steps

variable {c d : Cursor} {before : List Portion} {waiting : List Token} {I : Cursor → Prop}

/-- What all steps and the taking of documentation keep, one thing after another keeps. -/
theorem Step.after_keeps (hI : Kept I) (htake : ∀ c, I c → I c.takeDocs.2) (s : Step) (hc : I c) :
    I (s.after c) := by
  cases s with
  | advance => exact hI.advance hc
  | skipTrivia => exact hI.skipTrivia hc
  | skipGap => exact hI.skipGap hc
  | takeDocs => exact htake c hc
  | value r given => exact (Composed.value r given : Composed True _).keeps hI c hc
  | shapeId => exact (Composed.shapeId : Composed True _).keeps hI c hc
  | trait r => exact (Composed.trait trivial r).keeps hI c hc
  | traits r => exact (Composed.traits trivial r).keeps hI c hc
  | leading r => exact hI.leading htake r hc
  | statement r => exact (Composed.statement trivial r).keeps hI c hc
  | document r => exact (Composed.document trivial r).keeps hI c hc

theorem ledger_docs (h : Ledger c before waiting) :
    ∃ more rest, Ledger (Trait.readDocs c).2 (before ++ more) rest ∧ more.filterMap Portion.text? =
      ((Trait.readDocs c).1.toOption.join.bind (·.value.string?)).toList := by
  have hkept := kept_goesOn before
  rw [Trait.readDocs_apply]
  by_cases hdoc : c.skipTrivia.kind = .docComment
  · rw [if_pos hdoc]
    obtain ⟨more, rest, hgap, hnone⟩ := hkept.skipGap (hkept.skipTrivia h.goesOn)
    obtain ⟨taken, rest', htaken, htexts⟩ := hgap.takeDocs
    refine ⟨more ++ taken, rest', by rwa [← List.append_assoc], ?_⟩
    rw [List.filterMap_append, List.filterMap_eq_nil_iff.mpr hnone, List.nil_append, htexts]
    cases c.skipTrivia.skipGap.takeDocs.1 with
    | none => rfl
    | some text => rfl
  · rw [if_neg hdoc]
    obtain ⟨more, rest, hgap, hnone⟩ := hkept.skipTrivia h.goesOn
    exact ⟨more, rest, hgap, List.filterMap_eq_nil_iff.mpr hnone⟩

/-- Only the documentation before leading traits is taken with them. -/
theorem ledger_leading (r : Resolver) (h : Ledger c before waiting) :
    ∃ more rest, Ledger ((Step.leading r).after c) (before ++ more) rest ∧
      more.filterMap Portion.text? = ((Step.leading r).taken c).toList := by
  obtain ⟨docs, d, hdocs, hrest⟩ := Trait.readLeading_apply r c
  obtain ⟨more, rest, hledger, htexts⟩ := ledger_docs h
  have hafter : (Step.leading r).after c = (Trait.readBehindDocs r docs d).2 :=
    congrArg Prod.snd hrest
  rw [hdocs] at hledger
  obtain ⟨later, rest', hledger', hnone⟩ :=
    (Composed.behindDocs trivial r docs).keeps (kept_goesOn (before ++ more)) d hledger.goesOn
  refine ⟨more ++ later, rest', ?_, ?_⟩
  · rw [hafter, ← List.append_assoc]
    exact hledger'
  · rw [List.filterMap_append, List.filterMap_eq_nil_iff.mpr hnone, List.append_nil]
    exact htexts

/-- One step adds portions to the ledger, of which those that were taken have the text
that was taken. -/
theorem ledger_step (s : Step) (h : Ledger c before waiting) :
    ∃ more rest, Ledger (s.after c) (before ++ more) rest ∧
      more.filterMap Portion.text? = (s.taken c).toList := by
  -- All steps but two take nothing, and of those it is enough that the ledger goes on.
  have hquiet (hnone : s.taken c = none) (hgoes : GoesOn before (s.after c)) :
      ∃ more rest, Ledger (s.after c) (before ++ more) rest ∧
        more.filterMap Portion.text? = (s.taken c).toList := by
    obtain ⟨more, rest, hledger, hmore⟩ := hgoes
    exact ⟨more, rest, hledger, by rw [hnone]; exact List.filterMap_eq_nil_iff.mpr hmore⟩
  have hkept := kept_goesOn before
  cases s with
  | advance => exact hquiet rfl (hkept.advance h.goesOn)
  | skipTrivia => exact hquiet rfl (hkept.skipTrivia h.goesOn)
  | skipGap => exact hquiet rfl (hkept.skipGap h.goesOn)
  | takeDocs => exact h.takeDocs
  | value r given =>
    exact hquiet rfl ((Composed.value r given : Composed True _).keeps hkept c h.goesOn)
  | shapeId => exact hquiet rfl ((Composed.shapeId : Composed True _).keeps hkept c h.goesOn)
  | trait r => exact hquiet rfl ((Composed.trait trivial r).keeps hkept c h.goesOn)
  | traits r => exact hquiet rfl ((Composed.traits trivial r).keeps hkept c h.goesOn)
  | leading r => exact ledger_leading r h
  | statement r => exact hquiet rfl ((Composed.statement trivial r).keeps hkept c h.goesOn)
  | document r => exact hquiet rfl ((Composed.document trivial r).keeps hkept c h.goesOn)

theorem ledger_run (steps : List Step) (h : Ledger c before waiting) :
    ∃ more rest, Ledger (run steps c).2 (before ++ more) rest ∧
      more.filterMap Portion.text? = (run steps c).1 := by
  induction steps generalizing c before waiting with
  | nil => exact ⟨[], waiting, by rwa [List.append_nil], rfl⟩
  | cons s steps ih =>
    obtain ⟨more, rest, hledger, htexts⟩ := ledger_step s h
    obtain ⟨later, rest', hledger', htexts'⟩ := ih hledger
    refine ⟨more ++ later, rest', by rwa [← List.append_assoc], ?_⟩
    rw [List.filterMap_append, htexts, htexts', run]

theorem tokens_run (steps : List Step) (c : Cursor) : (run steps c).2.tokens = c.tokens := by
  induction steps generalizing c with
  | nil => rfl
  | cons s steps ih =>
    refine (ih _).trans (s.after_keeps (kept_tokens c.tokens) (fun d hd => ?_) rfl)
    rw [← hd, Cursor.takeDocs]
    split <;> rfl

end Steps

end Session

/-! ## The laws -/

/-- A document that is read ends at the end of its tokens. -/
theorem Apply.readAll_ends {r : Resolver} {c d : Cursor} {ss : List Apply}
    (h : readAll r c = (.ok ss, d)) : d.kind = .eof := by
  rw [readAll, Reading.skipGap_bind] at h
  exact eq_of_beq (Reading.untilKind_stops (fun ss => (passes_statement r).gather ss) h)

/-- After whatever was done with a cursor, the documentation that was passed has been taken
as the texts that came of it, or been refused with a warning at the token behind it, or
waits; and there are no other warnings. A document that is read takes none, up to the end
of the tokens. -/
theorem documentation_is_taken_refused_or_waits (tokens : List Token) (limit : Nat)
    (steps : List Session.Step) :
    let start := ofTokens tokens limit
    let c := (Session.run steps start).2
    c.tokens = start.tokens ∧ ∃ portions waiting, Ledger c portions waiting ∧
      portions.filterMap Portion.text? = (Session.run steps start).1 ∧
      ∀ r ss d, Apply.readAll r c = (.ok ss, d) → d.kind = .eof ∧
        ∃ more rest, Ledger d (portions ++ more) rest ∧ ∀ p ∈ more, p.text? = none := by
  intro start c
  obtain ⟨portions, waiting, hledger, htexts⟩ :=
    Session.ledger_run steps (ledger_ofTokens tokens limit)
  refine ⟨Session.tokens_run steps start, portions, waiting, hledger, htexts,
    fun r ss d hread => ?_⟩
  have hgoes := (Composed.document trivial r).keeps (kept_goesOn portions) c hledger.goesOn
  rw [hread] at hgoes
  exact ⟨Apply.readAll_ends hread, hgoes⟩

/-- The line before a statement is refused at the statement, and the line behind it waits. -/
theorem a_line_before_a_statement_is_refused_and_one_behind_it_waits :
    let found := Apply.readAll .forward
      (ofTokens (Source.mk [] (utf8 "/// a\napply S @t\n/// b")).tokens 64)
    found.1.isOk = true ∧ found.2.kind = .eof ∧ found.2.warnings = [.strayDocs ⟨[], 2, 1, 6, 5⟩] ∧
      found.2.docs = [utf8 "b"] ∧
      ∃ portions waiting, Ledger found.2 portions waiting ∧ ∀ p ∈ portions, p.text? = none := by
  intro found
  have hok : found.1.isOk = true := by decide +kernel
  obtain ⟨-, portions, waiting, -, htexts, hdocument⟩ := documentation_is_taken_refused_or_waits
    (Source.mk [] (utf8 "/// a\napply S @t\n/// b")).tokens 64 []
  have hnone : ∀ p ∈ portions, p.text? = none := List.filterMap_eq_nil_iff.mp htexts
  cases hfound : found.1 with
  | error e =>
    rw [hfound] at hok
    cases hok
  | ok ss =>
    obtain ⟨hend, more, rest, hledger, hmore⟩ := hdocument .forward ss found.2 (Prod.ext hfound rfl)
    refine ⟨rfl, hend, by decide +kernel, by decide +kernel, portions ++ more, rest, hledger, ?_⟩
    exact fun p hp => (List.mem_append.mp hp).elim (hnone p) (hmore p)

end ShapeTraits
