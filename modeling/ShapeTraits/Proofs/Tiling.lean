-- The tokens of a document tile it: side by side they are its text, and each of
-- them but the end takes some of it. Asking for one token after another gives
-- these tokens and their errors, and from then on the same end again and again.
import ShapeTraits.Proofs.Spelling

namespace ShapeTraits

/-! ## The end -/

namespace Scan

/-- The kinds of the end and of numbers. -/
def isApart : Token.Kind → Bool
  | .eof | .number => true
  | _ => false

theorem comment_apart (text : Bytes) : isApart (comment text).content.kind = false := by
  simp only [comment]
  repeat' split
  all_goals rfl

/-- The kinds but those of comments, of numbers and of the end. -/
def isOrdinary : Token.Kind → Bool
  | .comment | .docComment | .number | .eof => false
  | _ => true

theorem not_apart_of_ordinary {k : Token.Kind} (h : isOrdinary k = true) : isApart k = false := by
  cases k with
  | eof | number => cases h
  | _ => rfl

theorem decoded_ordinary {content : Bytes → Token.Content}
    (h : ∀ meant, isOrdinary (content meant).kind = true) {text : Bytes} {width : Nat} :
    isOrdinary (decoded content text width).content.kind = true := by
  unfold decoded
  split
  · exact h _
  · rfl

theorem string_ordinary (text : Bytes) : isOrdinary (string text).content.kind = true := by
  simp only [string]
  split
  · exact decoded_ordinary fun _ => rfl
  · rfl

theorem textBlock_ordinary (text : Bytes) : isOrdinary (textBlock text).content.kind = true := by
  simp only [textBlock]
  repeat' split
  · rfl
  · exact decoded_ordinary fun _ => rfl
  · rfl

theorem quoted_ordinary (text : Bytes) : isOrdinary (quoted text).content.kind = true := by
  unfold quoted
  split
  · split
    · exact textBlock_ordinary _
    · exact string_ordinary _
  · exact string_ordinary _

theorem signContent_ordinary : ∀ b, isOrdinary (signContent b).kind = true := by
  exact Byte.forall_of_lt (by decide +kernel)

theorem sign_ordinary (first : UInt8) (rest : Bytes) :
    isOrdinary (sign first rest).content.kind = true := by
  unfold sign
  split
  · rfl
  · exact signContent_ordinary first

/-- Only a numeral is a number, and only behind a slash stands a comment. -/
theorem token_ordinary (first : UInt8) (rest : Bytes) :
    isOrdinary (token first rest).content.kind = true ∨ token first rest = numeral (first :: rest) ∨
      token first rest = comment (rest.drop 1) := by
  unfold token
  repeat' split
  · exact .inl rfl
  · exact .inl rfl
  · exact .inl rfl
  · exact .inl rfl
  · exact .inr (.inr rfl)
  · exact .inl rfl
  · exact .inr (.inl rfl)
  · exact .inl (quoted_ordinary _)
  · exact .inl (sign_ordinary _ _)

theorem numeral_ne_eof (text : Bytes) : (numeral text).content ≠ .eof := by
  unfold numeral
  split <;> exact nofun

/-- No byte begins the end, and only a numeral is a number. -/
theorem token_apart (first : UInt8) (rest : Bytes) :
    isApart (token first rest).content.kind = false ∨
      token first rest = numeral (first :: rest) := by
  rcases token_ordinary first rest with h | h | h
  · exact .inl (not_apart_of_ordinary h)
  · exact .inr h
  · rw [h]
    exact .inl (comment_apart _)

theorem token_ne_eof (first : UInt8) (rest : Bytes) : (token first rest).content ≠ .eof := by
  intro heof
  rcases token_apart first rest with h | h
  · rw [heof] at h
    cases h
  · exact numeral_ne_eof _ (h ▸ heof)

/-- A number is that of the numeral that is read. -/
theorem next_number {text : Bytes} {x : Number} (h : (next text).content = .number x) :
    ∃ n : Numeral, Numeral.read text = .ok n ∧ x = n.value ∧ (next text).width = n.text.length := by
  cases text with
  | nil => cases h
  | cons first rest =>
    rcases token_apart first rest with hapart | hnumeral
    · have hcontent : (token first rest).content = .number x := h
      rw [hcontent] at hapart
      cases hapart
    · have hnext : next (first :: rest) = numeral (first :: rest) := hnumeral
      rw [hnext] at h ⊢
      unfold numeral at h ⊢
      split at h
      · next n hread =>
        cases h
        exact ⟨n, hread, rfl, rfl⟩
      · cases h

theorem next_eq_eof {text : Bytes} : (next text).content = .eof ↔ text = [] := by
  cases text with
  | nil => exact ⟨fun _ => rfl, fun _ => rfl⟩
  | cons first rest => exact ⟨fun h => absurd h (token_ne_eof first rest), nofun⟩

end Scan

/-! ## One token after another -/

namespace Lexer

variable {l : Lexer}

/-- The text of a token and what is behind it make up what was ahead. -/
theorem lexeme_append_rest (l : Lexer) : l.lexeme ++ l.rest.ahead = l.ahead :=
  List.take_append_drop _ _

theorem lexeme_ne_nil (h : l.ahead ≠ []) : l.lexeme ≠ [] := by
  have hpos := Scan.next_width_pos h
  rw [lexeme, Ne, List.take_eq_nil_iff]
  exact fun hnil => hnil.elim (Nat.ne_of_gt hpos) h

theorem token_kind_eq_eof : l.token.kind = .eof ↔ l.ahead = [] := by
  rw [← Scan.next_eq_eof]
  cases hcontent : (Scan.next l.ahead).content <;>
    simp [token, Token.kind, hcontent, Token.Content.kind]

theorem tokens_of_nil (h : l.ahead = []) : l.tokens = [l.token] := by
  rw [tokens, if_pos h]

theorem tokens_of_ne_nil (h : l.ahead ≠ []) : l.tokens = l.token :: l.rest.tokens := by
  rw [tokens, if_neg h]

/-- Behind the end is the end. -/
theorem rest_of_nil (h : l.ahead = []) : l.rest = l := by
  obtain ⟨file, ahead, place⟩ := l
  cases h
  rfl

theorem finish_of_nil (h : l.ahead = []) : l.finish = l := by
  rw [finish, if_pos h, rest_of_nil h]

theorem finish_of_ne_nil (h : l.ahead ≠ []) : l.finish = l.rest.finish := by
  rw [finish, if_neg h]

/-- What holds where nothing is ahead, and before a token if it holds behind it,
holds everywhere. -/
theorem byTokens {motive : Lexer → Prop} (nil : ∀ l, l.ahead = [] → motive l)
    (cons : ∀ l, l.ahead ≠ [] → motive l.rest → motive l) (l : Lexer) : motive l := by
  -- A token takes some of what is ahead, so what is ahead becomes shorter.
  induction hn : l.ahead.length using Nat.strongRecOn generalizing l with
  | ind n ih =>
    subst hn
    by_cases h : l.ahead = []
    · exact nil l h
    · exact cons l h (ih _ (l.rest_ahead_lt h) l.rest rfl)

/-- Every token is the first one of some end of the text. -/
theorem exists_of_mem_tokens {t : Token} (h : t ∈ l.tokens) :
    ∃ k : Lexer, t = k.token ∧ k.ahead <:+ l.ahead := by
  induction l using byTokens with
  | nil l hnil =>
    rw [tokens_of_nil hnil, List.mem_singleton] at h
    exact ⟨l, h, List.suffix_refl _⟩
  | cons l hne ih =>
    rw [tokens_of_ne_nil hne, List.mem_cons] at h
    rcases h with rfl | h
    · exact ⟨l, rfl, List.suffix_refl _⟩
    · obtain ⟨k, hk, hahead⟩ := ih h
      exact ⟨k, hk, hahead.trans (List.drop_suffix _ _)⟩

theorem finish_ahead (l : Lexer) : l.finish.ahead = [] := by
  induction l using byTokens with
  | nil l h => rw [finish_of_nil h, h]
  | cons l h ih => rw [finish_of_ne_nil h, ih]

theorem tokens_flatMap_lexeme (l : Lexer) : l.tokens.flatMap Token.lexeme = l.ahead := by
  induction l using byTokens with
  | nil l h =>
    have hlexeme : l.token.lexeme ++ l.rest.ahead = l.ahead := l.lexeme_append_rest
    rw [rest_of_nil h, h, List.append_nil] at hlexeme
    rw [tokens_of_nil h, List.flatMap_singleton, hlexeme, h]
  | cons l h ih =>
    rw [tokens_of_ne_nil h, List.flatMap_cons, ih]
    exact l.lexeme_append_rest

/-- Every token is the first one behind the text of those before it, and what is behind
it is the text of those that follow. -/
theorem exists_of_tokens_eq {before after : List Token} {t : Token}
    (h : l.tokens = before ++ t :: after) :
    ∃ k : Lexer, t = k.token ∧ l.ahead = before.flatMap Token.lexeme ++ k.ahead ∧
      k.rest.ahead = after.flatMap Token.lexeme := by
  induction before generalizing l with
  | nil =>
    by_cases hnil : l.ahead = []
    · rw [tokens_of_nil hnil, List.nil_append, List.cons.injEq] at h
      obtain ⟨rfl, rfl⟩ := h
      exact ⟨l, rfl, rfl, by rw [rest_of_nil hnil, hnil]; rfl⟩
    · rw [tokens_of_ne_nil hnil, List.nil_append, List.cons.injEq] at h
      obtain ⟨rfl, rfl⟩ := h
      exact ⟨l, rfl, rfl, (tokens_flatMap_lexeme l.rest).symm⟩
  | cons first before ih =>
    by_cases hnil : l.ahead = []
    · rw [tokens_of_nil hnil, List.cons_append, List.cons.injEq] at h
      exact absurd h.2.symm (List.append_ne_nil_of_right_ne_nil before (List.cons_ne_nil t after))
    · rw [tokens_of_ne_nil hnil, List.cons_append, List.cons.injEq] at h
      obtain ⟨rfl, hrest⟩ := h
      obtain ⟨k, hk, hahead, hbehind⟩ := ih hrest
      refine ⟨k, hk, ?_, hbehind⟩
      rw [← lexeme_append_rest l, hahead, List.flatMap_cons, List.append_assoc]
      rfl

/-- The end comes last, and the tokens before it all take some text. -/
theorem tokens_eq_append (l : Lexer) : ∃ before, l.tokens = before ++ [l.finish.token] ∧
    ∀ t ∈ before, t.kind ≠ .eof ∧ t.lexeme ≠ [] := by
  induction l using byTokens with
  | nil l h => exact ⟨[], by rw [tokens_of_nil h, finish_of_nil h]; rfl, List.forall_mem_nil _⟩
  | cons l h ih =>
    obtain ⟨before, htokens, hbefore⟩ := ih
    refine ⟨l.token :: before, ?_, List.forall_mem_cons.mpr ⟨⟨?_, lexeme_ne_nil h⟩, hbefore⟩⟩
    · rw [tokens_of_ne_nil h, htokens, finish_of_ne_nil h, List.cons_append]
    · exact fun hk => h (token_kind_eq_eof.mp hk)

end Lexer

/-! ## Errors -/

/-- The message of an error and where it stands. -/
def LexicalError.report (e : LexicalError) : Bytes × Location × Location :=
  (e.fault.message, e.start, e.last)

/-- What a token carries as text, which is the message of an error, and where it
stands. -/
def Token.report (t : Token) : Bytes × Location × Location :=
  (t.content.text?.getD [], t.start, t.last)

theorem Token.error?_report (t : Token) :
    t.error?.map LexicalError.report = if t.kind = .error then some t.report else none := by
  obtain ⟨content, lexeme, start, last⟩ := t
  cases content <;> rfl

/-- The errors among some tokens are those of the tokens that are errors. -/
theorem lexicalErrors_report (tokens : List Token) :
    (lexicalErrors tokens).map LexicalError.report =
      (tokens.filter (·.kind == .error)).map Token.report := by
  rw [lexicalErrors, List.map_filterMap]
  induction tokens with
  | nil => rfl
  | cons t tokens ih =>
    rw [List.filterMap_cons, Token.error?_report]
    by_cases h : t.kind = .error
    · rw [if_pos h, List.filter_cons_of_pos (by simpa using h), List.map_cons, ← ih]
    · rw [if_neg h, List.filter_cons_of_neg (by simpa using h), ← ih]

/-! ## Calls -/

/-- A lexer that is asked for one token at a time, and the errors it has found so
far. -/
structure Calls where
  lexer : Lexer
  errors : List LexicalError

namespace Calls

/-- Before the first call. -/
def start (s : Source) : Calls := ⟨.ofSource s, []⟩

/-- Behind one more call, whose token has been passed and may be an error. -/
def step (c : Calls) : Calls := ⟨c.lexer.rest, c.errors ++ c.lexer.token.error?.toList⟩

/-- The tokens that so many calls give, and what they leave. -/
def run : Nat → Calls → List Token × Calls
  | 0, c => ([], c)
  | count + 1, c => (c.lexer.token :: (run count c.step).1, (run count c.step).2)

theorem run_add (k count : Nat) (c : Calls) : run (k + count) c =
    ((run k c).1 ++ (run count (run k c).2).1, (run count (run k c).2).2) := by
  induction k generalizing c with
  | zero => rw [Nat.zero_add]; rfl
  | succ k ih =>
    rw [Nat.add_right_comm, run, ih]
    rfl

/-- As many calls as there are tokens give just these tokens and their errors. -/
theorem run_tokens (l : Lexer) (errors : List LexicalError) : run l.tokens.length ⟨l, errors⟩ =
    (l.tokens, ⟨l.finish, errors ++ lexicalErrors l.tokens⟩) := by
  induction l using Lexer.byTokens generalizing errors with
  | nil l h =>
    rw [Lexer.tokens_of_nil h, Lexer.finish_of_nil h]
    exact congrArg (fun k => ([l.token], Calls.mk k _)) (Lexer.rest_of_nil h)
  | cons l h ih =>
    have hstep : Calls.step ⟨l, errors⟩ = ⟨l.rest, errors ++ l.token.error?.toList⟩ := rfl
    have herrors : lexicalErrors (l.token :: l.rest.tokens) =
        l.token.error?.toList ++ lexicalErrors l.rest.tokens := by
      rw [lexicalErrors, List.filterMap_cons, lexicalErrors]
      cases l.token.error? <;> rfl
    rw [Lexer.tokens_of_ne_nil h, Lexer.finish_of_ne_nil h, List.length_cons, run, hstep,
      ih, herrors, List.append_assoc]

/-- At the end every call gives the end once more. -/
theorem run_at_end {c : Calls} (h : c.lexer.ahead = []) (count : Nat) :
    run count c = (List.replicate count c.lexer.token, c) := by
  have herror : c.lexer.token.error? = none := by
    have hcontent : c.lexer.token.content = .eof := Scan.next_eq_eof.mpr h
    rw [Token.error?, hcontent]
    rfl
  have hstep : c.step = c := by
    rw [step, herror, Lexer.rest_of_nil h, Option.toList_none, List.append_nil]
  induction count with
  | zero => rfl
  | succ count ih => rw [run, hstep, ih, List.replicate_succ]

end Calls

/-! ## The laws -/

/-- The lexemes make up the text, the end comes last and only there, no other token
is empty, and the errors are the messages and places of the tokens that are errors.
As many calls as there are tokens give these tokens and errors; every further call
gives the end at the same place and no more errors. -/
theorem the_tokens_tile_the_document (s : Source) :
    s.tokens.flatMap Token.lexeme = s.content ∧
      (lexicalErrors s.tokens).map LexicalError.report =
        (s.tokens.filter (·.kind == .error)).map Token.report ∧
      ∃ before eof, s.tokens = before ++ [eof] ∧ eof.kind = .eof ∧
        (∀ t ∈ before, t.kind ≠ .eof ∧ t.lexeme ≠ []) ∧
        ∀ further, ∃ left, Calls.run (s.tokens.length + further) (.start s) =
          (s.tokens ++ List.replicate further eof, left) ∧
          left.errors = lexicalErrors s.tokens := by
  obtain ⟨before, htokens, hbefore⟩ := (Lexer.ofSource s).tokens_eq_append
  have hend := (Lexer.ofSource s).finish_ahead
  refine ⟨(Lexer.ofSource s).tokens_flatMap_lexeme, lexicalErrors_report _, before, _, htokens,
    Lexer.token_kind_eq_eof.mpr hend, hbefore, fun further => ?_⟩
  have hrun : Calls.run s.tokens.length (.start s) =
      (s.tokens, ⟨(Lexer.ofSource s).finish, lexicalErrors s.tokens⟩) := Calls.run_tokens _ []
  exact ⟨⟨(Lexer.ofSource s).finish, lexicalErrors s.tokens⟩,
    by rw [Calls.run_add, hrun, Calls.run_at_end hend], rfl⟩

end ShapeTraits
