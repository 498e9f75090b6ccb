-- No fault of the text is read over. A run is followed in step with itself as far as the
-- first token that is an error: nothing begins there, so no reader passes it, and whatever
-- is wrong before or at that token is reported there, at the latest.
import Mathlib
import ShapeTraits.Proofs.Delimiting
import ShapeTraits.Proofs.DocumentationLedger
import ShapeTraits.Proofs.Foresight
import ShapeTraits.Proofs.Frame
import ShapeTraits.Proofs.Simulation

namespace ShapeTraits

open Cursor

/-! ## Before an error -/

/-- Among some tokens or at the error behind them. -/
def Cursor.UpTo (w : List Token) (err : Token) (c : Cursor) : Prop :=
  ∃ v rest, v <:+ w ∧ c.ahead = v ++ err :: rest

/-- What is wrong is wrong at one of the tokens, or with the error behind them, whose own
message it has then. -/
def ParseError.IsUpTo (w : List Token) (err : Token) (fault : Fault) (e : ParseError) : Prop :=
  (∃ t ∈ w, e.location = t.start) ∨
    e.location = err.start ∧ (e.cause.kind = .grammar → e.message = fault.message)

section UpTo

variable {w : List Token} {err : Token} {fault : Fault} {c : Cursor}

/-- The current token is the error, or else one of those before it. -/
theorem Cursor.UpTo.current (h : c.UpTo w err) : c.current = err ∨ c.current ∈ w := by
  obtain ⟨v, rest, hsuffix, ha⟩ := h
  cases v with
  | nil => exact .inl (current_of_ahead ha)
  | cons t v =>
    have hcurrent : c.current = t := current_of_ahead ha
    exact .inr (hcurrent ▸ hsuffix.mem List.mem_cons_self)

variable (herr : err.content = .error fault)

include herr

theorem Cursor.UpTo.advance (h : c.UpTo w err) (hk : c.kind ≠ .error) : c.advance.UpTo w err := by
  by_cases hend : c.kind = .eof
  · rwa [advance_of_end hend]
  obtain ⟨v, rest, hsuffix, ha⟩ := h
  cases v with
  | nil =>
    have hkind : c.kind = .error := by rw [kind_of_ahead ha, Token.kind, herr]; rfl
    exact absurd hkind hk
  | cons t v =>
    have hkind : c.kind = t.kind := kind_of_ahead ha
    have ht : t.kind ≠ .eof := hkind ▸ hend
    exact ⟨v, rest, (List.suffix_cons t v).trans hsuffix, advance_ahead_of ha ht⟩

theorem Cursor.UpTo.skip {among : Token.Kind → Bool} (hamong : among .error = false)
    (h : c.UpTo w err) :
    (c.skip among).UpTo w err := by
  fun_induction Cursor.skip among c with
  | case1 => exact h
  | case2 c _ hk ih =>
    refine ih (h.advance herr fun herror => ?_)
    rw [herror, hamong] at hk
    cases hk
  | case3 => exact h

/-- What is wrong with the current token is wrong with one of those before the error, or has
the message of the error. -/
theorem Cursor.UpTo.blame (h : c.UpTo w err) {cause : Token → ParseError.Cause}
    (faults : ∀ t f, t.content = .error f → (cause t).message = f.message) :
    ParseError.IsUpTo w err fault ⟨cause c.current, c.location⟩ := by
  rcases h.current with hcurrent | hmem
  · refine .inr ⟨congrArg Token.start hcurrent, fun _ => faults _ _ ?_⟩
    rw [hcurrent, herr]
  · exact .inl ⟨c.current, hmem, rfl⟩

end UpTo

/-! ## A run in step with itself -/

/-- Before the same tokens, which are still up to an error. -/
structure TogetherUpTo (w : List Token) (err : Token) (c c' : Cursor) : Prop where
  upTo : c.UpTo w err
  ahead : c'.ahead = c.ahead
  limit : c'.limit = c.limit
  depth : c'.depth = c.depth

/-- The same run twice, up to an error. Only what is wrong, and where, matters. -/
def upToFault (w : List Token) (err : Token) (fault : Fault) : Relations where
  cursor := TogetherUpTo w err
  place l _ := ∃ t ∈ w, l = t.start
  node _ _ := True
  blame e _ := e.IsUpTo w err fault

section Run

variable {w : List Token} {err : Token} {fault : Fault} {c c' : Cursor}

theorem TogetherUpTo.current (h : TogetherUpTo w err c c') : c'.current = c.current := by
  rw [Cursor.current, h.ahead, Cursor.current]

theorem TogetherUpTo.resolve (h : TogetherUpTo w err c c') (r : Resolver) (name : Bytes)
    (l l' : Location) :
    (upToFault w err fault).InStep (upToFault w err fault).node (r.resolve name l c)
      (r.resolve name l' c') := by
  obtain ⟨n, hn⟩ := r.resolve_ok name l
  obtain ⟨n', hn'⟩ := r.resolve_ok name l'
  obtain ⟨d, hd, hahead, hlimit, hdepth⟩ := hn c
  obtain ⟨d', hd', hahead', hlimit', hdepth'⟩ := hn' c'
  rw [hd, hd']
  refine .ok trivial ⟨?_, ?_, ?_, ?_⟩
  · rw [UpTo, hahead]
    exact h.upTo
  · rw [hahead', hahead, h.ahead]
  · rw [hlimit', hlimit, h.limit]
  · rw [hdepth', hdepth, h.depth]

variable (herr : err.content = .error fault)

include herr

theorem TogetherUpTo.sight (h : TogetherUpTo w err c c') :
    Sight (upToFault w err fault).place c.current c'.current := by
  rw [h.current]
  rcases h.upTo.current with hcurrent | hmem
  · have hidle : c.current.kind.isIdle = true := by
      rw [hcurrent, Token.kind, herr]
      rfl
    exact .idle hidle hidle rfl
  · exact .same rfl ⟨c.current, hmem, rfl⟩

theorem TogetherUpTo.advance (h : TogetherUpTo w err c c') (hk : c.kind ≠ .error) :
    TogetherUpTo w err c.advance c'.advance := by
  refine ⟨h.upTo.advance herr hk, advance_ahead_congr h.ahead, ?_, ?_⟩
  · rw [(Framed.advance c).limit, (Framed.advance c').limit, h.limit]
  · rw [(Framed.advance c).depth, (Framed.advance c').depth, h.depth]

theorem TogetherUpTo.skip (h : TogetherUpTo w err c c') {among : Token.Kind → Bool}
    (heof : among .eof = false)
    (herror : among .error = false) : TogetherUpTo w err (c.skip among) (c'.skip among) := by
  have hmove := moved_skip heof c
  have hmove' := moved_skip heof c'
  refine ⟨h.upTo.skip herr herror, ?_, ?_, ?_⟩
  · rw [skip_ahead heof, skip_ahead heof, h.ahead]
  · rw [hmove'.limit, hmove.limit, h.limit]
  · rw [hmove'.depth, hmove.depth, h.depth]

theorem upToFault_kept (r : Resolver) : (upToFault w err fault).Kept r r where
  sight h := h.sight herr
  limit h := h.limit
  depth h := h.depth
  advance h hk := h.advance herr (Token.Kind.isIdle_eq_false.mp hk).2.1
  skipGap h := h.skip herr rfl rfl
  note _ _ h := ⟨h.upTo, h.ahead, h.limit, h.depth⟩
  enter h := ⟨h.upTo, h.ahead, h.limit, congrArg (· + 1) h.depth⟩
  leave h := ⟨h.upTo, h.ahead, h.limit, congrArg (· - 1) h.depth⟩
  refuse _ _ faults h := h.upTo.blame herr faults
  tooDeep h := h.upTo.current.symm.imp (fun hmem => ⟨_, hmem, rfl⟩)
    fun hcurrent => ⟨congrArg Token.start hcurrent, fun hgrammar => by cases hgrammar⟩
  twice _ _ hplace := .inl hplace
  null _ := trivial
  number _ _ := trivial
  string _ _ := trivial
  array _ _ := trivial
  object _ _ := trivial
  resolve name _ h := h.resolve _ name _ _

theorem TogetherUpTo.keyword (h : TogetherUpTo w err c c') :
    (upToFault w err fault).InStep Eq (Apply.readKeyword c) (Apply.readKeyword c') := by
  rw [Apply.readKeyword_apply, Apply.readKeyword_apply, h.current]
  by_cases hword : c.current.content = .identifier ∧ c.current.lexeme = Apply.keyword
  · rw [if_pos hword, if_pos hword]
    refine .ok rfl (h.advance herr fun herror => ?_)
    rw [Cursor.kind, Token.kind, hword.1] at herror
    cases herror
  · rw [if_neg hword, if_neg hword]
    exact .error (h.upTo.blame herr Token.keywordCause_faults) h

theorem TogetherUpTo.target (h : TogetherUpTo w err c c') :
    (upToFault w err fault).InStep Eq (Apply.readTarget c) (Apply.readTarget c') := by
  refine Relations.Kept.bind (h.keyword herr) fun {_ _ d d'} _ _ _ hd => ?_
  have hkind : d'.kind = d.kind := congrArg Token.kind hd.current
  -- Ids are read without any resolver.
  have hS := upToFault_kept (w := w) herr .forward
  by_cases hblank : d.kind ∈ [.space, .newline]
  · rw [Apply.readBehindKeyword, Reading.expect_bind_of_mem hblank,
      Reading.expect_bind_of_mem (hkind ▸ hblank)]
    exact hS.shapeId (hd.skip herr rfl rfl)
  · rw [Apply.readBehindKeyword, Reading.expect_bind_of_not_mem hblank,
      Reading.expect_bind_of_not_mem (hkind ▸ hblank)]
    exact hS.unexpected _ hd

/-- An error before the end of what is ahead stops the reading of a document. -/
theorem Apply.readAll_upToFault (r : Resolver) (hw : ∀ t ∈ w, t.kind ≠ .eof) (h : c.UpTo w err) :
    ∃ e d, Apply.readAll r c = (.error e, d) ∧ e.IsUpTo w err fault := by
  have hS := upToFault_kept (w := w) herr r
  have hstep := hS.document (fun hc => hc.skip herr rfl rfl) (fun hc => hc.target herr)
    (show TogetherUpTo w err c c from ⟨h, rfl, rfl, rfl⟩)
  rcases hfound : readAll r c with ⟨answer, d⟩
  rw [hfound] at hstep
  cases hstep with
  | error blame _ => exact ⟨_, d, rfl, blame⟩
  | ok _ hd =>
    have hend := readAll_ends hfound
    rcases hd.upTo.current with hcurrent | hmem
    · rw [Cursor.kind, hcurrent, Token.kind, herr] at hend
      cases hend
    · exact absurd hend (hw _ hmem)

end Run

/-! ## The errors of a text -/

theorem Token.error?_eq_some {t : Token} {e : LexicalError} (h : t.error? = some e) :
    t.content = .error e.fault ∧ e.start = t.start := by
  obtain ⟨content, lexeme, start, last⟩ := t
  cases content <;> cases h
  exact ⟨rfl, rfl⟩

/-- A literal without an end is an error. -/
theorem Token.not_isCutOff_of_no_error {t : Token} (h : t.error? = none) : ¬t.IsCutOff := by
  rintro ⟨hopen, -⟩
  obtain ⟨content, lexeme, start, last⟩ := t
  cases content <;> first | cases hopen | cases h

/-- The tokens before the first error of a text start before it, and none of them is the
end. -/
theorem Lexer.Stands.before_error {l : Lexer} {s : Source} {before : Bytes}
    (hsize : s.content.length < 2 ^ 32 - 2) (h : Stands s before l) {w rest : List Token}
    {err : Token} (htokens : l.tokens = w ++ err :: rest) (hw : ∀ t ∈ w, t.error? = none) :
    before.length ≤ err.offset ∧ ∀ t ∈ w, t.kind ≠ .eof ∧ t.offset < err.offset := by
  induction l using byTokens generalizing before w with
  | nil l hnil =>
    obtain ⟨hoffset, -⟩ := h.token_bounds hsize
    rw [tokens_of_nil hnil] at htokens
    cases w with
    | nil =>
      obtain ⟨rfl, -⟩ := List.cons.inj htokens
      exact ⟨Nat.le_of_eq hoffset.symm, List.forall_mem_nil _⟩
    | cons t w => cases w <;> cases htokens
  | cons l hne ih =>
    obtain ⟨hoffset, -⟩ := h.token_bounds hsize
    rw [tokens_of_ne_nil hne] at htokens
    cases w with
    | nil =>
      obtain ⟨rfl, -⟩ := List.cons.inj htokens
      exact ⟨Nat.le_of_eq hoffset.symm, List.forall_mem_nil _⟩
    | cons t w =>
      obtain ⟨rfl, hrest⟩ := List.cons.inj htokens
      obtain ⟨hone, hw⟩ := List.forall_mem_cons.mp hw
      obtain ⟨hle, hall⟩ := ih (h.rest (Token.not_isCutOff_of_no_error hone)) hrest hw
      have hlt : before.length < err.offset := by
        have hpos := List.length_pos_iff.mpr (lexeme_ne_nil hne)
        rw [List.length_append] at hle
        omega
      refine ⟨Nat.le_of_lt hlt, List.forall_mem_cons.mpr ⟨⟨?_, hoffset ▸ hlt⟩, hall⟩⟩
      exact fun hk => hne (token_kind_eq_eof.mp hk)

/-! ## The laws -/

/-- If a text has lexical errors, its document is refused, at the first of them at the
latest; and if there, with the message of that error, unless it is nested too deep. -/
theorem no_lexical_error_is_read_over {s : Source} (hsize : s.content.length < 2 ^ 32 - 2)
    {first : LexicalError} {more : List LexicalError} (h : lexicalErrors s.tokens = first :: more)
    (r : Resolver) (limit : Nat) :
    ∃ e d, Apply.readAll r (ofTokens s.tokens limit) = (.error e, d) ∧
      e.location.offset ≤ first.start.offset ∧
      (e.cause.kind = .grammar → e.location.offset = first.start.offset →
        e.message = first.fault.message) := by
  obtain ⟨w, err, rest, htokens, hw, herror, -⟩ := List.filterMap_eq_cons_iff.mp h
  obtain ⟨herr, hfirst⟩ := Token.error?_eq_some herror
  have hstart : Lexer.Stands s [] (.ofSource s) := ⟨rfl, rfl⟩
  obtain ⟨-, hbefore⟩ := hstart.before_error hsize htokens hw
  obtain ⟨rest', hahead⟩ := ofTokens_ahead (t := err) w rest limit
  obtain ⟨e, d, hread, hupTo⟩ := Apply.readAll_upToFault herr r (c := ofTokens s.tokens limit)
    (fun t ht => (hbefore t ht).1) ⟨w, rest', List.suffix_refl w, htokens ▸ hahead⟩
  refine ⟨e, d, hread, ?_⟩
  rcases hupTo with ⟨t, ht, hlocation⟩ | ⟨hlocation, hmessage⟩
  · have hlt : e.location.offset < first.start.offset := by
      rw [hlocation, hfirst]
      exact (hbefore t ht).2
    exact ⟨UInt32.le_of_lt hlt, fun _ heq => absurd heq (UInt32.ne_of_lt hlt)⟩
  · rw [hlocation, hfirst]
    exact ⟨UInt32.le_refl _, fun hgrammar _ => hmessage hgrammar⟩

/-- The string without an end is where the document is refused, and this is what is said. -/
theorem an_open_string_is_refused_where_it_begins :
    let s := Source.mk [] (utf8 "apply S @t(\"a")
    let place : Location := ⟨[], 1, 12, 11, 2⟩
    s.content.length < 2 ^ 32 - 2 ∧
      lexicalErrors s.tokens = [⟨.openString, place, ⟨[], 1, 13, 12, 1⟩⟩] ∧
      ∃ e d, Apply.readAll .forward (ofTokens s.tokens 64) = (.error e, d) ∧ e.location = place ∧
        e.message = Fault.openString.message := by
  intro s place
  have hsize : s.content.length < 2 ^ 32 - 2 := by decide
  have herrors : lexicalErrors s.tokens = [⟨.openString, place, ⟨[], 1, 13, 12, 1⟩⟩] := by
    decide +kernel
  obtain ⟨e, d, hread, -, hmessage⟩ := no_lexical_error_is_read_over hsize herrors .forward 64
  have hfound : (errorOf (Apply.readAll .forward (ofTokens s.tokens 64)).1).map
      (fun e => (e.cause.kind, e.location)) = some (.grammar, place) := by decide +kernel
  rw [hread] at hfound
  obtain ⟨hgrammar, hlocation⟩ := Prod.mk.inj (Option.some.inj hfound)
  exact ⟨hsize, herrors, e, d, hread, hlocation,
    hmessage hgrammar (congrArg Location.offset hlocation)⟩

end ShapeTraits
