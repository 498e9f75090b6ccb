-- Values as they are written: strings, numbers, names, and objects and arrays
-- of values. Commas are blanks.
import ShapeTraits.Resolver
import ShapeTraits.ShapeId

namespace ShapeTraits

open Reading

namespace Member

/-- The key of a member, a name or a string, and where it stands. -/
def key (expected : List Token.Kind) : Reading (Bytes × Location) := do
  let token ← current
  match token.content with
  | .string text => return (text, token.start)
  | .identifier => return (token.lexeme, token.start)
  | _ => unexpected expected

/-- Passes the colon between a key and its value. -/
def colon : Reading Unit := do
  skipGap
  expect [.colon]
  advance
  skipGap

/-- One more member, whose key must be new. -/
def read (owner : MemberOwner) (expected : List Token.Kind) (value : Reading Node)
    (members : KeyedList Node) : Reading (KeyedList Node) := do
  let (name, location) ← key expected
  advance
  colon
  let node ← value
  match members.insert? name location node with
  | none => refuse ⟨.duplicateMember owner name, location⟩
  | some members =>
    skipGap
    return members

end Member

namespace Node

/-- An object, whose values `value` reads. -/
def readObject (value : Reading Node) : Reading Node := do
  let start ← Reading.location
  advance
  skipGap
  let members ← untilKind (· == .rightBrace)
    (Member.read .object [.identifier, .string, .rightBrace] value) .empty
  advance
  return .object start members

/-- One more item of an array. -/
def readItem (value : Reading Node) (items : List Node) : Reading (List Node) := do
  let node ← value
  skipGap
  return items ++ [node]

/-- An array, whose items `value` reads. -/
def readArray (value : Reading Node) : Reading Node := do
  let start ← Reading.location
  advance
  skipGap
  let items ← untilKind (· == .rightBracket) (readItem value) []
  advance
  return .array start items

/-- The kinds of tokens that values begin with. -/
def firstKinds : List Token.Kind :=
  [.string, .textBlock, .number, .identifier, .leftBrace, .leftBracket]

/-- A value, inside which `inner` reads values. A location that is given takes
the place of the value's own, except for objects and arrays. -/
def readWith (r : Resolver) (inner : Reading Node) (given : Option Location) : Reading Node := do
  let token ← current
  let location := given.getD token.start
  match token.content with
  | .string text | .textBlock text =>
    advance
    return .string location text
  | .number value =>
    advance
    return .number location value
  | .identifier =>
    let id ← ShapeId.read
    r.resolve id location
  | .leftBrace => nested (readObject inner)
  | .leftBracket => nested (readArray inner)
  | _ => unexpected firstKinds

/-- A value with so many levels of nesting left. Without any left nothing reads
the values inside, for none is entered. -/
def readWithin (r : Resolver) : (levels : Nat) → (given : Option Location) → Reading Node
  | 0, given => readWith r (unexpected []) given
  | levels + 1, given => readWith r (readWithin r levels none) given

/-- The value at the cursor. -/
def read (r : Resolver) (given : Option Location) : Reading Node := fun c =>
  readWithin r (c.limit - c.depth) given c

end Node

end ShapeTraits
