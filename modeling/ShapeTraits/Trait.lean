-- Traits applied to shapes: `@name`, `@name(...)` with a value or with the
-- members of one, and documentation, which is a trait as well.
import ShapeTraits.Node.Literal

namespace ShapeTraits

/-- How a trait was written. -/
inductive Trait.Kind where
  /-- With a value. -/
  | value
  /-- By its name alone. -/
  | bare
  /-- As documentation. -/
  | docComment
  deriving DecidableEq, Repr

/-- An applied trait: its name as written, its value, which is null without
one, and where it stands. -/
structure Trait where
  name : Bytes
  value : Node
  kind : Trait.Kind
  location : Location

namespace Trait

open Reading

/-- The kinds in their order. -/
def Kind.all : List Kind := [.value, .bare, .docComment]

/-- The name of a kind. -/
def Kind.text : Kind → Bytes
  | .value => utf8 "value"
  | .bare => utf8 "annotation"
  | .docComment => utf8 "doc_comment"

/-! ## Bodies -/

/-- Members up to the closing parenthesis, the first from behind its colon on.
They make an object where the first key stands. -/
def readMembers (r : Resolver) (key : Bytes) (location : Location) : Reading Node :=
  nested do
    let value ← Node.read r none
    let first := KeyedList.empty.insertNew key location value
    skipGap
    let members ← untilKind (· == .rightParen)
      (Member.read .trait [.identifier, .string] (Node.read r none)) first
    return .object location members

/-- What begins with a key is members if a colon follows, and else the value
that `alone` reads. -/
def readKeyed (r : Resolver) (key : Bytes) (location : Location) (alone : Reading Node) :
    Reading Node := do
  advance
  skipGap
  if (← Reading.kind) = .colon then
    advance
    skipGap
    readMembers r key location
  else alone

/-- The kinds of tokens that bodies begin with. -/
def firstKinds : List Token.Kind :=
  [.leftBrace, .leftBracket, .textBlock, .string, .number, .identifier]

/-- The value between the parentheses. Where it has no place of its own it is
located at the trait. A name alone is one identifier. -/
def readBody (r : Resolver) (location : Location) : Reading Node := do
  let token ← current
  match token.content with
  | .leftBrace | .leftBracket => (Node.read r (some location)).andAlways Cursor.skipGap
  | .textBlock text =>
    advance
    skipGap
    return .string location text
  | .number value =>
    advance
    skipGap
    return .number location value
  | .string text => readKeyed r text token.start (pure (.string location text))
  | .identifier => readKeyed r token.lexeme token.start (r.resolve token.lexeme location)
  | _ => unexpected firstKinds

/-! ## Traits -/

/-- One trait, from its `@` on. -/
def read (r : Resolver) : Reading Trait := do
  let location ← Reading.location
  expect [.at]
  advance
  let name ← ShapeId.read
  if (← Reading.kind) = .leftParen then
    advance
    skipGap
    if (← Reading.kind) = .rightParen then
      advance
      return ⟨name, .null location, .bare, location⟩
    else
      let value ← readBody r location
      skipGap
      expect [.rightParen]
      advance
      note (.valueTrait name location)
      return ⟨name, value, .value, location⟩
  else
    note (.bareTrait name location)
    return ⟨name, .null location, .bare, location⟩

/-- One more trait, and the gap behind it. -/
def readNext (r : Resolver) (traits : List Trait) : Reading (List Trait) := do
  let trait ← read r
  skipGap
  return traits ++ [trait]

/-- All the traits up to the first token that begins none. -/
def readAll (r : Resolver) : Reading (List Trait) := untilKind (· != .at) (readNext r) []

/-! ## Documentation -/

/-- The name of the trait that documentation is. -/
def documentation : Bytes := utf8 "sidl.api#documentation"

/-- The documentation at the cursor, as a trait. -/
def readDocs : Reading (Option Trait) := do
  skipTrivia
  let token ← current
  if token.kind = .docComment then
    skipGap
    let text ← takeDocs
    return text.map fun text =>
      ⟨documentation, .string token.start text, .docComment, token.start⟩
  else return none

/-- The traits before a shape or member. Documentation before them comes
last. -/
def readLeading (r : Resolver) : Reading (List Trait) := do
  let docs ← readDocs
  let traits ← readAll r
  skipGap
  return traits ++ docs.toList

end Trait

end ShapeTraits
