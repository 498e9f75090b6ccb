-- Why a document is refused: each cause with its message and the location that
-- is reported.
import ShapeTraits.Token

namespace ShapeTraits

/-- What members can belong to. -/
inductive MemberOwner where
  | object
  | trait
  deriving DecidableEq, Repr

namespace ParseError

/-- What the reading stopped at. -/
inductive Cause where
  /-- Bytes that are no token. -/
  | fault (fault : Fault) (expected : List Token.Kind)
  /-- A token of none of the kinds that could stand there. -/
  | unexpected (found : Token) (expected : List Token.Kind)
  /-- A token that begins no statement. -/
  | noStatement
  /-- A second member with the same key. -/
  | duplicateMember (owner : MemberOwner) (key : Bytes)
  /-- More levels of nesting than allowed. -/
  | tooDeep (limit : Nat)
  deriving DecidableEq, Repr

/-- The two kinds of errors. -/
inductive Kind where
  | grammar
  | resourceLimit
  deriving DecidableEq, Repr

end ParseError

/-- A refusal and where it happened. -/
structure ParseError where
  cause : ParseError.Cause
  location : Location
  deriving DecidableEq, Repr

namespace ParseError

/-- Only too deep a nesting is a matter of limits. -/
def Cause.kind : Cause → Kind
  | tooDeep _ => .resourceLimit
  | _ => .grammar

/-- Some alternatives, said as one or as several. -/
def alternatives : List Token.Kind → Bytes
  | [kind] => utf8 "Expected " ++ kind.text
  | kinds => utf8 "Expected one of " ++ Bytes.joinWith (utf8 ", ") (kinds.map (·.text))

def Cause.message : Cause → Bytes
  | fault f _ => f.message
  | unexpected found expected => alternatives expected ++ utf8 " but found " ++ found.describe
  | noStatement => utf8 "Expected 'apply' statement"
  | duplicateMember .object key => utf8 "Duplicate member of object: '" ++ key ++ utf8 "'"
  | duplicateMember .trait key => utf8 "Duplicate member of trait: '" ++ key ++ utf8 "'"
  | tooDeep limit => utf8 "Parser exceeded the maximum allowed depth of " ++ Bytes.ofNat limit

/-- The kinds of tokens that could have stood there. -/
def Cause.expected : Cause → List Token.Kind
  | fault _ kinds | unexpected _ kinds => kinds
  | noStatement => [.identifier]
  | _ => []

def message (e : ParseError) : Bytes := e.cause.message

/-- The text `file:line:column: error: message`. -/
def text (e : ParseError) : Bytes := e.location.text ++ utf8 ": error: " ++ e.message

end ParseError

/-- What is accepted but looks like a mistake. -/
inductive Warning where
  /-- Documentation before something that takes none. -/
  | strayDocs (location : Location)
  deriving DecidableEq, Repr

namespace Warning

def location : Warning → Location
  | strayDocs location => location

def message : Warning → Bytes
  | strayDocs _ => utf8 "documentation comment is not attached to a shape or member"

end Warning

end ShapeTraits
