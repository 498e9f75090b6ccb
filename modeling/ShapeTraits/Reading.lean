-- Readings: steps that start at a cursor, give an answer or an error, and stop
-- at another cursor in either case.
import ShapeTraits.Cursor

namespace ShapeTraits

/-- A step that reads a value of some type. -/
def Reading (α : Type) : Type := Cursor → Except ParseError α × Cursor

namespace Reading

variable {α β : Type}

/-! ## Sequences -/

/-- Reads nothing. -/
protected def pure (value : α) : Reading α := fun c => (.ok value, c)

/-- Reads on from where the first step stops, unless that is an error. -/
protected def bind (first : Reading α) (next : α → Reading β) : Reading β := fun c =>
  match first c with
  | (.ok value, d) => next value d
  | (.error e, d) => (.error e, d)

instance : Monad Reading where
  pure := Reading.pure
  bind := Reading.bind

@[simp] theorem pure_apply (value : α) (c : Cursor) : (pure value : Reading α) c = (.ok value, c) :=
  rfl

theorem bind_apply (first : Reading α) (next : α → Reading β) (c : Cursor) :
    (first >>= next) c =
      match first c with
      | (.ok value, d) => next value d
      | (.error e, d) => (.error e, d) := rfl

/-! ## Single steps -/

/-- Stops with an error. -/
def refuse (e : ParseError) : Reading α := fun c => (.error e, c)

/-- Changes the cursor. -/
def change (f : Cursor → Cursor) : Reading Unit := fun c => (.ok (), f c)

/-- The current token. -/
def current : Reading Token := fun c => (.ok c.current, c)

/-- The kind of the current token. -/
def kind : Reading Token.Kind := fun c => (.ok c.kind, c)

/-- Where the current token stands. -/
def location : Reading Location := fun c => (.ok c.location, c)

/-- Passes the current token. -/
def advance : Reading Unit := change Cursor.advance

def skipTrivia : Reading Unit := change Cursor.skipTrivia

def skipGap : Reading Unit := change Cursor.skipGap

/-- Tells of an event. -/
def note (event : Log.Event) : Reading Unit := change (·.note event)

/-- Stops at the current token, which is of none of the expected kinds. -/
def unexpected (expected : List Token.Kind) : Reading α :=
  fun c => (.error (c.unexpected expected), c)

/-- Reads on if the current token is of one of the expected kinds. -/
def expect (expected : List Token.Kind) : Reading Unit := fun c =>
  if c.kind ∈ expected then (.ok (), c) else (.error (c.unexpected expected), c)

/-- Takes the documentation that waits. -/
def takeDocs : Reading (Option Bytes) := fun c =>
  let (text, c) := c.takeDocs
  (.ok text, c)

/-! ## Steps made of steps -/

/-- Changes the cursor after a step, also after an error. -/
def andAlways (step : Reading α) (f : Cursor → Cursor) : Reading α := fun c =>
  let (answer, d) := step c
  (answer, f d)

/-- Reads one level deeper, if that is still allowed. -/
def nested (step : Reading α) : Reading α := fun c =>
  let c := c.enter
  if c.isTooDeep then (.error c.tooDeep, c.leave) else step.andAlways Cursor.leave c

/-- Repeats a step until the current token is of a kind to stop at. A step that
passes no token is the last one. -/
def untilKind (stop : Token.Kind → Bool) (step : α → Reading α) (value : α) : Reading α := fun c =>
  if stop c.kind then (.ok value, c)
  else
    match step value c with
    | (.error e, d) => (.error e, d)
    | (.ok value, d) =>
      if d.ahead.length < c.ahead.length then untilKind stop step value d else (.ok value, d)
termination_by c => c.ahead.length

end Reading

end ShapeTraits
