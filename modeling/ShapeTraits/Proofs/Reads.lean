-- What it is that a reading reads a form: it accepts exactly the tokens that
-- the form derives, gives what they stand for, and stops right behind them. A
-- loop over a step that reads a thing and its gap reads many of them.
import ShapeTraits.Proofs.CursorMoves
import ShapeTraits.Proofs.Grammar

namespace ShapeTraits

open Cursor Grammar

/-! ## Kinds -/

theorem Token.Kind.mem_all (k : Token.Kind) : k ∈ Token.Kind.all := by
  cases k <;> decide

/-- There are finitely many kinds to try. -/
instance (p : Token.Kind → Prop) [DecidablePred p] : Decidable (∀ k, p k) :=
  decidable_of_iff (∀ k ∈ Token.Kind.all, p k) ⟨fun h k => h k k.mem_all, fun h k _ => h k⟩

namespace Token

theorem Kind.isGap_iff {k : Kind} : k.isGap = true ↔ k.isTrivia = true ∨ k = .docComment := by
  rw [isGap, Bool.or_eq_true, beq_iff_eq]

variable {t : Token}

theorem kind_eq_eof : t.kind = .eof ↔ t.content = .eof := by
  cases h : t.content <;> simp [kind, h, Content.kind]

theorem kind_eq_identifier : t.kind = .identifier ↔ t.content = .identifier := by
  cases h : t.content <;> simp [kind, h, Content.kind]

theorem kind_eq_docComment : t.kind = .docComment ↔ ∃ line, t.content = .docComment line := by
  cases h : t.content <;> simp [kind, h, Content.kind]

theorem kind_eq_leftBrace : t.kind = .leftBrace ↔ t.content = .leftBrace := by
  cases h : t.content <;> simp [kind, h, Content.kind]

theorem kind_eq_leftBracket : t.kind = .leftBracket ↔ t.content = .leftBracket := by
  cases h : t.content <;> simp [kind, h, Content.kind]

/-- A token with a content other than the end is not the end. -/
theorem ne_eof_of_content {content : Content} (h : t.content = content)
    (hne : content ≠ .eof := by simp) : t.kind ≠ .eof :=
  fun ht => hne (h.symm.trans (kind_eq_eof.mp ht))

end Token

/-! ## What comes next -/

/-- The next token, if there is one, is of none of some kinds. -/
def NotNext (bad : Token.Kind → Bool) (w : List Token) : Prop :=
  ∀ t, w.head? = some t → bad t.kind = false

/-- The first token is of one of some kinds. -/
def Begins (kinds : List Token.Kind) (w : List Token) : Prop := ∃ t u, w = t :: u ∧ t.kind ∈ kinds

section Next

variable {bad : Token.Kind → Bool} {kinds : List Token.Kind} {g w rest : List Token} {t : Token}

theorem notNext_cons (h : bad t.kind = false) : NotNext bad (t :: rest) := by
  intro u hu
  rw [List.head?_cons, Option.some.injEq] at hu
  exact hu ▸ h

theorem NotNext.head (h : NotNext bad (t :: rest)) : bad t.kind = false := h t rfl

theorem NotNext.kind {c : Cursor} (h : NotNext bad c.ahead) (heof : bad .eof = false) :
    bad c.kind = false := by
  cases ha : c.ahead with
  | nil => rw [Cursor.kind, Cursor.current, ha]; exact heof
  | cons t rest => rw [kind_of_ahead ha]; exact h t (by rw [ha]; rfl)

theorem NotNext.imp {worse : Token.Kind → Bool} (h : NotNext worse w)
    (hbad : ∀ k, worse k = false → bad k = false) : NotNext bad w :=
  fun t ht => hbad _ (h t ht)

theorem notNext_gap (hg : Gap g) (hbad : ∀ k, Token.Kind.isGap k = true → bad k = false)
    (h : NotNext bad rest) : NotNext bad (g ++ rest) := by
  cases g with
  | nil => exact h
  | cons t g => exact notNext_cons (hbad _ (hg t List.mem_cons_self))

theorem Begins.ne_nil (h : Begins kinds w) : w ≠ [] := by
  obtain ⟨t, u, rfl, -⟩ := h
  exact List.cons_ne_nil t u

theorem Begins.notNext (h : Begins kinds w) (hbad : ∀ k ∈ kinds, bad k = false) :
    NotNext bad (w ++ rest) := by
  obtain ⟨t, u, rfl, ht⟩ := h
  exact notNext_cons (hbad _ ht)

theorem Begins.mono {more : List Token.Kind} (h : Begins kinds w) (hsub : kinds ⊆ more) :
    Begins more w := by
  obtain ⟨t, u, hw, ht⟩ := h
  exact ⟨t, u, hw, hsub ht⟩

/-- What comes behind many things is not worse than they are. -/
theorem notNext_many {α : Type} {P : Form α} {as : List α} {refs : List Reference}
    (h : Many P w as refs) (hP : ∀ v a r, P v a r → Begins kinds v)
    (hbad : ∀ k ∈ kinds, bad k = false) (hrest : NotNext bad rest) : NotNext bad (w ++ rest) := by
  cases h with
  | nil => exact hrest
  | cons first gap more =>
    rw [List.append_assoc, List.append_assoc]
    exact (hP _ _ _ first).notNext hbad

end Next

namespace Grammar

variable {t : Token} {k text : Bytes} {w : List Token} {n : Node} {refs : List Reference}

theorem Key.kind_mem (h : Key t k) : t.kind ∈ [Token.Kind.identifier, .string] := by
  cases h with
  | name hcontent => simp [Token.kind, hcontent, Token.Content.kind]
  | string hcontent => simp [Token.kind, hcontent, Token.Content.kind]

theorem Key.ne_eof (h : Key t k) : t.kind ≠ .eof := by
  intro ht
  have := h.kind_mem
  rw [ht] at this
  simp at this

theorem Id.begins (h : Id w text) : Begins [.identifier] w := by
  cases h with
  | mk hname => exact ⟨_, _, rfl, List.mem_singleton.mpr hname⟩

theorem Member.begins {V : Form Node} {e : Entry Node} (h : Member V w e refs) :
    Begins [.identifier, .string] w := by
  cases h with
  | mk hkey => exact ⟨_, _, rfl, hkey.kind_mem⟩

theorem Value.begins (h : Value w n refs) : Begins Node.firstKinds w := by
  cases h with
  | string hcontent =>
    exact ⟨_, _, rfl, by simp [Token.kind, hcontent, Token.Content.kind, Node.firstKinds]⟩
  | textBlock hcontent =>
    exact ⟨_, _, rfl, by simp [Token.kind, hcontent, Token.Content.kind, Node.firstKinds]⟩
  | number hcontent =>
    exact ⟨_, _, rfl, by simp [Token.kind, hcontent, Token.Content.kind, Node.firstKinds]⟩
  | id hid => exact hid.begins.mono (by decide)
  | object opens => exact ⟨_, _, rfl, by rw [opens]; decide⟩
  | array opens => exact ⟨_, _, rfl, by rw [opens]; decide⟩

end Grammar

/-! ## Gaps -/

section Gaps

variable {c : Cursor} {g rest : List Token}

/-- Passing tokens of some kinds passes all there are. -/
theorem moved_skip_of {among : Token.Kind → Bool} (heof : among .eof = false)
    (hg : ∀ t ∈ g, among t.kind = true) (ha : c.ahead = g ++ rest) (hrest : NotNext among rest) :
    Moved c (c.skip among) g [] 0 ∧ (c.skip among).ahead = rest := by
  have hstop : rest.takeWhile (fun t => among t.kind) = [] := by
    cases rest with
    | nil => rfl
    | cons t rest => exact List.takeWhile_cons_of_neg (Bool.eq_false_iff.mp hrest.head)
  have hmoved := moved_skip heof c
  rw [ha, List.takeWhile_append_of_pos hg, hstop, List.append_nil] at hmoved
  exact ⟨hmoved, (List.append_cancel_left (ha.symm.trans hmoved.ahead)).symm⟩

theorem moved_skipGap_of (hg : Gap g) (ha : c.ahead = g ++ rest)
    (hrest : NotNext Token.Kind.isGap rest) : Moved c c.skipGap g [] 0 ∧ c.skipGap.ahead = rest :=
  moved_skip_of rfl hg ha hrest

theorem moved_skipTrivia_of (hg : Trivia g) (ha : c.ahead = g ++ rest)
    (hrest : NotNext Token.Kind.isTrivia rest) :
    Moved c c.skipTrivia g [] 0 ∧ c.skipTrivia.ahead = rest :=
  moved_skip_of rfl hg ha hrest

theorem gap_ahead (c : Cursor) : Gap (c.ahead.takeWhile fun t => t.kind.isGap) :=
  List.all_eq_true.mp List.all_takeWhile

theorem trivia_ahead (c : Cursor) : Trivia (c.ahead.takeWhile fun t => t.kind.isTrivia) :=
  List.all_eq_true.mp List.all_takeWhile

end Gaps

/-! ## Readings of a form -/

/-- With so many levels of nesting left, a reading reads a form: what it accepts
is derived by the form, and what the form derives it accepts wherever no token
of a bad kind comes next. -/
structure Reads {α : Type} (levels : Nat) (read : Reading α) (P : Form α) (size : α → Nat)
    (bad : Token.Kind → Bool) : Prop where
  sound : ∀ {c d a}, c.limit - c.depth = levels → read c = (.ok a, d) →
    ∃ w refs, P w a refs ∧ Moved c d w refs (size a)
  complete : ∀ {c w a refs rest}, c.limit - c.depth = levels → P w a refs →
    c.ahead = w ++ rest → NotNext bad rest →
    ∃ d, read c = (.ok a, d) ∧ d.ahead = rest ∧ Moved c d w refs (size a)

section Reads

variable {α σ : Type} {levels : Nat} {P : Form α} {size : α → Nat} {bad : Token.Kind → Bool}

/-- A reading that reads a form passes some tokens for a thing exactly if the
form derives the thing from them. -/
theorem Reads.passes_iff {read : Reading α} (h : Reads levels read P size bad) {c : Cursor}
    {w rest : List Token} (a : α) (refs : List Reference) (hc : c.limit - c.depth = levels)
    (ha : c.ahead = w ++ rest) (hrest : NotNext bad rest) :
    (∃ d, read c = (.ok a, d) ∧ d.passed = w.reverse ++ c.passed ∧
      d.references = c.references ++ refs) ↔ P w a refs := by
  constructor
  · rintro ⟨d, hread, hpassed, hrefs⟩
    obtain ⟨x, later, hP, hmove⟩ := h.sound hc hread
    have hx : x = w :=
      List.reverse_inj.mp (List.append_cancel_right (hmove.passed.symm.trans hpassed))
    have hlater : later = refs := List.append_cancel_left (hmove.references.symm.trans hrefs)
    exact hx ▸ hlater ▸ hP
  · intro hP
    obtain ⟨d, hread, -, hmove⟩ := h.complete hc hP ha hrest
    exact ⟨d, hread, hmove.passed, hmove.references⟩

/-! ## Loops -/

/-- A step that reads one more thing and the gap behind it. The things read so
far are seen through `view`, and must stay `Fit`. -/
structure ReadsNext (levels : Nat) (step : σ → Reading σ) (view : σ → List α)
    (Fit : List α → Prop) (P : Form α) (size : α → Nat) (bad : Token.Kind → Bool) : Prop where
  sound : ∀ {s s' c d}, c.limit - c.depth = levels → step s c = (.ok s', d) →
    ∃ a v g refs, P v a refs ∧ Gap g ∧ view s' = view s ++ [a] ∧
      (Fit (view s) → Fit (view s')) ∧ Moved c d (v ++ g) refs (size a)
  complete : ∀ {s c v a refs g rest}, c.limit - c.depth = levels → P v a refs → Gap g →
    Fit (view s ++ [a]) → c.ahead = v ++ (g ++ rest) → NotNext bad rest →
    NotNext Token.Kind.isGap rest →
    ∃ s' d, step s c = (.ok s', d) ∧ view s' = view s ++ [a] ∧ d.ahead = rest ∧
      Moved c d (v ++ g) refs (size a)

variable {step : σ → Reading σ} {view : σ → List α} {Fit : List α → Prop}
  {kinds : List Token.Kind} {stop : Token.Kind → Bool}

theorem ReadsNext.progress (h : ReadsNext levels step view Fit P size bad)
    (hP : ∀ v a r, P v a r → Begins kinds v) {s s' : σ} {c d : Cursor}
    (hc : c.limit - c.depth = levels) (hs : step s c = (.ok s', d)) :
    d.ahead.length < c.ahead.length := by
  obtain ⟨a, v, g, refs, hv, -, -, -, hmove⟩ := h.sound hc hs
  exact hmove.ahead_lt (List.append_ne_nil_of_left_ne_nil (hP _ _ _ hv).ne_nil g)

/-- A loop that succeeds has read many things and stands where it should stop. -/
theorem ReadsNext.sound_loop (h : ReadsNext levels step view Fit P size bad)
    (hP : ∀ v a r, P v a r → Begins kinds v) {s s' : σ} {c d : Cursor}
    (hc : c.limit - c.depth = levels) (hs : Reading.untilKind stop step s c = (.ok s', d)) :
    stop d.kind = true ∧ ∃ as w refs, Many P w as refs ∧ view s' = view s ++ as ∧
      (Fit (view s) → Fit (view s')) ∧ Moved c d w refs (largest size as) := by
  induction hn : c.ahead.length using Nat.strongRecOn generalizing s c with
  | ind n ih =>
    subst hn
    by_cases hstop : stop c.kind = true
    · rw [Reading.untilKind_stop hstop] at hs
      obtain ⟨h1, rfl⟩ := Prod.mk.inj hs
      cases h1
      exact ⟨hstop, [], [], [], .nil, (List.append_nil _).symm, id, .refl c⟩
    · rw [Bool.not_eq_true] at hstop
      obtain ⟨t, e, hstep, hlt, hrest⟩ :=
        Reading.untilKind_more hstop (fun hs => h.progress hP hc hs) hs
      obtain ⟨a, v, g, refs, hv, hg, hview, hfit, hmove⟩ := h.sound hc hstep
      obtain ⟨hend, as, w, later, hmany, hview', hfit', hmove'⟩ :=
        ih _ hlt (hmove.levels.trans hc) hrest rfl
      refine ⟨hend, a :: as, v ++ g ++ w, refs ++ later, .cons hv hg hmany, ?_,
        fun hs => hfit' (hfit hs), hmove.trans hmove'⟩
      rw [hview', hview, List.append_assoc]
      rfl

/-- A loop reads as many things as there are before a token to stop at. -/
theorem ReadsNext.complete_loop (h : ReadsNext levels step view Fit P size bad)
    (stop : Token.Kind → Bool)
    (hP : ∀ v a r, P v a r → Begins kinds v)
    (hkinds : ∀ k ∈ kinds, stop k = false ∧ bad k = false ∧ k.isGap = false)
    (hshorter : ∀ as bs, Fit (as ++ bs) → Fit as)
    {t : Token} {rest w : List Token} {as : List α} {refs : List Reference}
    (hstop : stop t.kind = true) (hbad : bad t.kind = false) (hgap : t.kind.isGap = false)
    {s : σ} {c : Cursor} (hc : c.limit - c.depth = levels) (hm : Many P w as refs)
    (hfit : Fit (view s ++ as)) (ha : c.ahead = w ++ t :: rest) :
    ∃ s' d, Reading.untilKind stop step s c = (.ok s', d) ∧ view s' = view s ++ as ∧
      d.ahead = t :: rest ∧ Moved c d w refs (largest size as) := by
  induction hm generalizing s c with
  | nil =>
    refine ⟨s, c, Reading.untilKind_stop ?_, (List.append_nil _).symm, ha, .refl c⟩
    rw [kind_of_ahead ha]
    exact hstop
  | @cons v g w a as refs later first gap more ih =>
    have hafter (worse : Token.Kind → Bool) (hk : ∀ k ∈ kinds, worse k = false)
        (ht : worse t.kind = false) : NotNext worse (w ++ t :: rest) :=
      notNext_many more hP hk (notNext_cons ht)
    rw [List.append_assoc, List.append_assoc] at ha
    have hfit' : Fit (view s ++ [a]) := hshorter _ as (by simpa using hfit)
    obtain ⟨s', d, hstep, hview, hd, hmove⟩ := h.complete hc first gap hfit' ha
      (hafter bad (fun k hk => (hkinds k hk).2.1) hbad)
      (hafter _ (fun k hk => (hkinds k hk).2.2) hgap)
    obtain ⟨s'', e, hloop, hview', he, hmove'⟩ := ih (hmove.levels.trans hc)
      (by rw [hview]; simpa using hfit) hd
    obtain ⟨u, x, rfl, hu⟩ := hP _ _ _ first
    have hgo : stop c.kind = false := by
      rw [kind_of_ahead ha]
      exact (hkinds _ hu).1
    refine ⟨s'', e, ?_, by rw [hview', hview]; simp, he, hmove.trans hmove'⟩
    rw [Reading.untilKind_step hgo hstep (h.progress hP hc hstep)]
    exact hloop

/-! ## Loops between brackets -/

/-- A loop behind an opening bracket that stops at a token passes what stands
between the two, and both of them. -/
theorem ReadsNext.sound_enclosed (h : ReadsNext levels step view Fit P size bad)
    (hP : ∀ v a r, P v a r → Begins kinds v) {s s' : σ} {c d : Cursor}
    (hc : c.limit - c.depth = levels) (hopen : c.kind ≠ .eof)
    (hs : Reading.untilKind stop step s c.advance.skipGap = (.ok s', d))
    (hclose : stop d.kind = true → d.kind ≠ .eof) :
    stop d.kind = true ∧ ∃ g as w refs, Gap g ∧ Many P w as refs ∧ view s' = view s ++ as ∧
      (Fit (view s) → Fit (view s')) ∧
      Moved c d.advance (c.current :: (g ++ w ++ [d.current])) refs (largest size as) := by
  have hstart := moved_advance hopen
  have hgap := moved_skipGap c.advance
  obtain ⟨hstop, as, w, refs, hm, hview, hfit, hmove⟩ :=
    h.sound_loop hP (hgap.levels.trans (hstart.levels.trans hc)) hs
  exact ⟨hstop, _, as, w, refs, gap_ahead c.advance, hm, hview, hfit,
    ((hmove.afterQuiet hgap).thenQuiet (moved_advance (hclose hstop))).afterQuiet hstart⟩

theorem ReadsNext.complete_enclosed (h : ReadsNext levels step view Fit P size bad)
    (stop : Token.Kind → Bool)
    (hP : ∀ v a r, P v a r → Begins kinds v)
    (hkinds : ∀ k ∈ kinds, stop k = false ∧ bad k = false ∧ k.isGap = false)
    (hshorter : ∀ as bs, Fit (as ++ bs) → Fit as)
    {l r : Token} {g w rest : List Token} {as : List α} {refs : List Reference}
    (hopen : l.kind ≠ .eof) (hclose : r.kind ≠ .eof) (hstop : stop r.kind = true)
    (hbad : bad r.kind = false) (hgap : r.kind.isGap = false)
    {s : σ} {c : Cursor} (hc : c.limit - c.depth = levels) (hg : Gap g) (hm : Many P w as refs)
    (hfit : Fit (view s ++ as)) (ha : c.ahead = l :: (g ++ w ++ [r]) ++ rest) :
    ∃ s' d, Reading.untilKind stop step s c.advance.skipGap = (.ok s', d) ∧
      view s' = view s ++ as ∧ d.kind = r.kind ∧ d.advance.ahead = rest ∧
      Moved c d.advance (l :: (g ++ w ++ [r])) refs (largest size as) := by
  rw [List.cons_append, List.append_assoc, List.append_assoc] at ha
  have hstart := moved_advance_of_ahead ha hopen
  have hnext : NotNext Token.Kind.isGap (w ++ r :: rest) :=
    notNext_many hm hP (fun k hk => (hkinds k hk).2.2) (notNext_cons hgap)
  obtain ⟨hskip, ha'⟩ := moved_skipGap_of hg (advance_ahead_of ha hopen) hnext
  obtain ⟨s', d, hloop, hview, hd, hmove⟩ := h.complete_loop stop hP hkinds hshorter hstop hbad hgap
    (hskip.levels.trans (hstart.levels.trans hc)) hm hfit ha'
  have hend := moved_advance_of_ahead hd hclose
  exact ⟨s', d, hloop, hview, kind_of_ahead hd, advance_ahead_of hd hclose,
    ((hmove.afterQuiet hskip).thenQuiet hend).afterQuiet hstart⟩

/-! ## Loops that gather a list -/

/-- Reads one more thing and the gap behind it. -/
def Reading.gather (read : Reading α) (as : List α) : Reading (List α) := do
  let a ← read
  skipGap
  return as ++ [a]

/-- A loop over a reading that gathers what it reads. -/
theorem Reads.gather {read : Reading α} (h : Reads levels read P size bad)
    (hbad : ∀ k, Token.Kind.isGap k = true → bad k = false) :
    ReadsNext levels (Reading.gather read) id (fun _ => True) P size bad where
  sound := by
    intro as bs c d hc hs
    obtain ⟨a, e, hread, hs⟩ := Reading.bind_eq_ok.mp hs
    obtain ⟨v, refs, hv, hmove⟩ := h.sound hc hread
    rw [Reading.skipGap_bind, Reading.pure_apply] at hs
    obtain ⟨h1, rfl⟩ := Prod.mk.inj hs
    cases h1
    exact ⟨a, v, _, refs, hv, gap_ahead e, rfl, id, hmove.thenQuiet (moved_skipGap e)⟩
  complete := by
    intro as c v a refs g rest hc hv hg _ ha hnext hgap
    obtain ⟨d, hread, hd, hmove⟩ := h.complete hc hv ha (notNext_gap hg hbad hnext)
    obtain ⟨hskip, hahead⟩ := moved_skipGap_of hg hd hgap
    refine ⟨as ++ [a], d.skipGap, ?_, rfl, hahead, hmove.thenQuiet hskip⟩
    rw [Reading.gather, Reading.bind_of_ok hread]
    rfl

end Reads

end ShapeTraits
