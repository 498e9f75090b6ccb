-- A position among tokens, with what has been gathered on the way there:
-- documentation that waits for its owner, warnings, names left for later,
-- events, and the levels of nesting.
import ShapeTraits.Log.Event
import ShapeTraits.ParseError

namespace ShapeTraits

/-- A name whose meaning is left for later, and where it stands. -/
structure Reference where
  name : Bytes
  location : Location
  deriving DecidableEq, Repr

/-- The tokens that have been passed, latest first, and those ahead. All the
other lists are oldest first. -/
structure Cursor where
  passed : List Token
  ahead : List Token
  /-- How deep values may nest. -/
  limit : Nat
  depth : Nat
  /-- The greatest depth so far. -/
  deepest : Nat
  /-- The lines of documentation without an owner yet. -/
  docs : List Bytes
  warnings : List Warning
  references : List Reference
  events : List Log.Event
  deriving DecidableEq, Repr

namespace Cursor

/-- A cursor before some tokens, to which an end is added if they have none. -/
def ofTokens (tokens : List Token) (limit : Nat) : Cursor where
  passed := []
  ahead := if (tokens.getLast?.map Token.kind) = some .eof then tokens else tokens ++ [.missingEof]
  limit := limit
  depth := 0
  deepest := 0
  docs := []
  warnings := []
  references := []
  events := []

/-! ## The current token -/

def current (c : Cursor) : Token := c.ahead.headD .missingEof

def kind (c : Cursor) : Token.Kind := c.current.kind

def location (c : Cursor) : Location := c.current.start

def isAtEnd (c : Cursor) : Bool := c.kind == .eof

/-- The error of a token that is of none of the expected kinds. What is no
token at all keeps its own message. -/
def unexpected (c : Cursor) (expected : List Token.Kind) : ParseError :=
  match c.current.content with
  | .error fault => ⟨.fault fault expected, c.location⟩
  | _ => ⟨.unexpected c.current expected, c.location⟩

/-! ## Moving on -/

/-- With one more event. -/
def note (c : Cursor) (event : Log.Event) : Cursor := { c with events := c.events ++ [event] }

/-- Without the documentation that waits, of which the token at a location has
shown that it has no owner. -/
def dropDocs (c : Cursor) (location : Location) : Cursor :=
  if c.docs = [] then c
  else { c.note (.strayDocs location) with
    docs := [], warnings := c.warnings ++ [.strayDocs location] }

/-- What passing a token does besides: documentation is gathered, and trivia
leave it waiting, but other tokens are no owners of it. -/
def take (c : Cursor) (token : Token) : Cursor :=
  match token.content with
  | .docComment line => { c with docs := c.docs ++ [line] }
  | content => if content.kind.isTrivia then c else c.dropDocs token.start

/-- Passes the current token. The end is never passed. -/
def advance (c : Cursor) : Cursor :=
  match c.ahead with
  | [] => c
  | token :: ahead =>
    if token.kind = .eof then c else { c.take token with passed := token :: c.passed, ahead }

theorem advance_ahead (c : Cursor) (h : ¬c.isAtEnd) :
    c.advance.ahead.length < c.ahead.length := by
  unfold advance
  cases hc : c.ahead with
  | nil => simp [isAtEnd, kind, current, hc, Token.missingEof, Token.kind, Token.Content.kind] at h
  | cons token ahead =>
    simp only [isAtEnd, kind, current, hc, List.headD_cons, beq_iff_eq] at h
    simp [h]

/-- Passes tokens of some kinds as long as they come. -/
def skip (among : Token.Kind → Bool) (c : Cursor) : Cursor :=
  if c.isAtEnd then c
  else if among c.kind then c.advance.skip among
  else c
termination_by c.ahead.length
decreasing_by exact c.advance_ahead ‹_›

/-- Passes trivia. -/
def skipTrivia (c : Cursor) : Cursor := c.skip Token.Kind.isTrivia

/-- Passes trivia and documentation. -/
def skipGap (c : Cursor) : Cursor := c.skip Token.Kind.isGap

/-! ## Documentation -/

/-- The lines of documentation that wait, as one text, and the cursor without
them. -/
def takeDocs (c : Cursor) : Option Bytes × Cursor :=
  if c.docs = [] then (none, c)
  else (some (Bytes.joinWith [Byte.lineFeed] c.docs), { c with docs := [] })

/-! ## Nesting -/

/-- One level deeper. -/
def enter (c : Cursor) : Cursor :=
  { c with depth := c.depth + 1, deepest := max c.deepest (c.depth + 1) }

/-- One level up again. -/
def leave (c : Cursor) : Cursor := { c with depth := c.depth - 1 }

/-- Deeper than allowed. -/
def isTooDeep (c : Cursor) : Bool := c.limit < c.depth

/-- The error of nesting too deep at the current token. -/
def tooDeep (c : Cursor) : ParseError := ⟨.tooDeep c.limit, c.location⟩

end Cursor

end ShapeTraits
