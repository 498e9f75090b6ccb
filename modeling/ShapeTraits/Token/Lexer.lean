-- A document as tokens. Each token takes its width from the text ahead, so the
-- tokens stand side by side, and the text gets shorter until only the end is
-- left.
import ShapeTraits.Source
import ShapeTraits.Token.Scan

namespace ShapeTraits

/-! ## Every token takes some text -/

namespace Scan

theorem comment_width_pos (text : Bytes) : 0 < (comment text).width :=
  Nat.lt_add_right _ Nat.two_pos

theorem decoded_width (content : Bytes → Token.Content) (text : Bytes) (width : Nat) :
    (decoded content text width).width = width := by
  unfold decoded; split <;> rfl

theorem string_width_pos (text : Bytes) : 0 < (string text).width := by
  simp only [string]; split
  · rw [decoded_width]; omega
  · simp

theorem textBlock_width_pos (text : Bytes) : 0 < (textBlock text).width := by
  simp only [textBlock]
  split
  · simp
  · split
    · rw [decoded_width]; omega
    · simp

theorem quoted_width_pos (text : Bytes) : 0 < (quoted text).width := by
  unfold quoted
  split
  · split
    · exact textBlock_width_pos _
    · exact string_width_pos _
  · exact string_width_pos _

theorem sign_width_pos (first : UInt8) (rest : Bytes) : 0 < (sign first rest).width := by
  unfold sign; split <;> simp

theorem numeral_width_pos (first : UInt8) (rest : Bytes)
    (h : Byte.isDigit first ∨ first = Byte.minus) : 0 < (numeral (first :: rest)).width := by
  have hpos := Numeral.wholeEnd_pos rest h
  unfold numeral
  split
  · exact Nat.lt_of_lt_of_le hpos (Numeral.wholeEnd_le_of_read ‹_›)
  · exact Nat.lt_of_lt_of_le hpos (Numeral.wholeEnd_le_of_read_error ‹_›)

theorem token_width_pos (first : UInt8) (rest : Bytes) : 0 < (token first rest).width := by
  unfold token
  repeat' split
  · exact Nat.lt_add_right _ Nat.one_pos
  · exact Nat.one_pos
  · exact Nat.two_pos
  · exact Nat.one_pos
  · exact comment_width_pos _
  · exact Nat.lt_add_right _ Nat.one_pos
  · exact numeral_width_pos _ _ ‹_›
  · exact quoted_width_pos _
  · exact sign_width_pos _ _

theorem next_width_pos {text : Bytes} (h : text ≠ []) : 0 < (next text).width := by
  cases text with
  | nil => exact absurd rfl h
  | cons first rest => exact token_width_pos first rest

end Scan

/-! ## Reading tokens -/

/-- The text that is still to be read, and where it stands. -/
structure Lexer where
  file : Bytes
  ahead : Bytes
  place : Place
  deriving DecidableEq, Repr

namespace Lexer

/-- A lexer at the start of a document. -/
def ofSource (s : Source) : Lexer := ⟨s.file, s.content, .start⟩

/-- The text of the token ahead. -/
def lexeme (l : Lexer) : Bytes := l.ahead.take (Scan.next l.ahead).width

/-- The token ahead. Its length is its width, also where that is more than
there is. -/
def token (l : Lexer) : Token :=
  let found := Scan.next l.ahead
  { content := found.content
    lexeme := l.lexeme
    start := l.place.location l.file found.width
    last := (l.place.past (l.lexeme.take (found.width - 1))).location l.file 1 }

/-- The lexer behind the token ahead. -/
def rest (l : Lexer) : Lexer :=
  let found := Scan.next l.ahead
  { l with
    ahead := l.ahead.drop found.width
    place := (l.place.past l.lexeme).skip (found.width - l.lexeme.length) }

theorem rest_ahead_lt (l : Lexer) (h : l.ahead ≠ []) :
    l.rest.ahead.length < l.ahead.length := by
  have hw := Scan.next_width_pos h
  have hl := List.length_pos_iff.mpr h
  simp only [rest, List.length_drop]
  omega

/-- All the tokens ahead. The last one, and no other, is the end. -/
def tokens (l : Lexer) : List Token :=
  if l.ahead = [] then [l.token] else l.token :: l.rest.tokens
termination_by l.ahead.length
decreasing_by exact l.rest_ahead_lt ‹_›

/-- The lexer behind all tokens. -/
def finish (l : Lexer) : Lexer :=
  if l.ahead = [] then l.rest else l.rest.finish
termination_by l.ahead.length
decreasing_by exact l.rest_ahead_lt ‹_›

end Lexer

/-! ## A whole document -/

/-- A fault and the token that has it. -/
structure LexicalError where
  fault : Fault
  start : Location
  last : Location
  deriving DecidableEq, Repr

/-- The error that a token stands for, if any. -/
def Token.error? (t : Token) : Option LexicalError :=
  t.content.fault?.map fun fault => ⟨fault, t.start, t.last⟩

/-- The tokens of a document. -/
def Source.tokens (s : Source) : List Token := (Lexer.ofSource s).tokens

/-- The errors among some tokens. -/
def lexicalErrors (tokens : List Token) : List LexicalError := tokens.filterMap Token.error?

end ShapeTraits
