-- The ids of shapes: names between dots for the namespace, the name of the
-- shape behind `#`, and that of a member behind `$`.
import ShapeTraits.Reading

namespace ShapeTraits.ShapeId

/-- The id so far and the name that comes next. -/
def name (id : Bytes) : Reading Bytes := do
  Reading.expect [.identifier]
  let token ← Reading.current
  Reading.advance
  return id ++ token.lexeme

/-- The id so far and, if the current token is the separator, that and the name
behind it. -/
def part (kind : Token.Kind) (separator id : Bytes) : Reading Bytes := do
  if (← Reading.kind) = kind then
    Reading.advance
    name (id ++ separator)
  else return id

/-- An id, exactly as it is written. No blanks stand inside it. -/
def read : Reading Bytes := do
  let first ← name []
  let segments ← Reading.untilKind (· != .dot) (part .dot (utf8 ".")) first
  let shape ← part .pound (utf8 "#") segments
  part .dollar (utf8 "$") shape

end ShapeTraits.ShapeId
