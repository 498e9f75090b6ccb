-- Statements that apply traits to a shape: `apply Shape @trait`, or several
-- traits between braces.
import ShapeTraits.Node.Json
import ShapeTraits.Trait

namespace ShapeTraits

/-- A statement: the id of its target as written, its traits, and where it
stands. -/
structure Apply where
  target : Bytes
  location : Location
  traits : List Trait

namespace Apply

open Reading

/-! ## Reading -/

/-- The word that a statement begins with. -/
def keyword : Bytes := utf8 "apply"

/-- Passes the word that a statement begins with. -/
def readKeyword : Reading Unit := do
  let token ← current
  match token.content with
  | .identifier =>
    if token.lexeme = keyword then advance
    else refuse ⟨.noStatement, token.start⟩
  | .error fault => refuse ⟨.fault fault [.identifier], token.start⟩
  | _ => refuse ⟨.noStatement, token.start⟩

/-- The traits of a statement: one, or those between braces. -/
def readTraits (r : Resolver) : Reading (List Trait) := do
  match ← Reading.kind with
  | .at =>
    let trait ← Trait.read r
    return [trait]
  | .leftBrace =>
    advance
    skipGap
    let traits ← Trait.readAll r
    expect [.rightBrace]
    advance
    return traits
  | _ => unexpected [.at, .leftBrace]

/-- One statement. A blank or line break must follow its first word. -/
def read (r : Resolver) : Reading Apply := do
  let location ← Reading.location
  readKeyword
  expect [.space, .newline]
  skipTrivia
  let target ← ShapeId.read
  skipTrivia
  let traits ← readTraits r
  note (.applied target traits.length)
  return ⟨target, location, traits⟩

/-- One more statement, and the gap behind it. -/
def readNext (r : Resolver) (statements : List Apply) : Reading (List Apply) := do
  let statement ← read r
  skipGap
  return statements ++ [statement]

/-- A whole document of statements. -/
def readAll (r : Resolver) : Reading (List Apply) := do
  skipGap
  untilKind (· == .eof) (readNext r) []

/-! ## As values -/

/-- A member whose key stands where its value does. -/
def field (key : Bytes) (value : Node) (members : KeyedList Node) : KeyedList Node :=
  members.insertNew key value.location value

/-- A trait as an object. -/
def traitNode (t : Trait) : Node :=
  let members := field (utf8 "name") (.string t.location t.name) .empty
  let members := field (utf8 "kind") (.string t.location t.kind.text) members
  .object t.location (field (utf8 "value") t.value.copy members)

/-- A statement as an object. -/
def toNode (s : Apply) : Node :=
  let members := field (utf8 "target") (.string s.location s.target) .empty
  let traits := Node.array s.location (s.traits.map traitNode)
  .object s.location (field (utf8 "traits") traits members)

end Apply

end ShapeTraits
