-- Tokens: what stands in a document and where. Blanks, commas and comments are
-- tokens like the others, so that no byte is lost.
import ShapeTraits.Location
import ShapeTraits.Number
import ShapeTraits.Token.Fault

namespace ShapeTraits

/-! ## Kinds -/

/-- The kinds of tokens. -/
inductive Token.Kind where
  | space
  | newline
  | comma
  | comment
  | docComment
  | string
  | textBlock
  | number
  | identifier
  | dot
  | pound
  | dollar
  | at
  | colon
  | walrus
  | equal
  | leftBrace
  | rightBrace
  | leftBracket
  | rightBracket
  | leftParen
  | rightParen
  | error
  | eof
  deriving DecidableEq, Repr

namespace Token

namespace Kind

/-- The kinds in their order. -/
def all : List Kind :=
  [space, newline, comma, comment, docComment, string, textBlock, number, identifier, dot, pound,
    dollar, Kind.at, colon, walrus, equal, leftBrace, rightBrace, leftBracket, rightBracket,
    leftParen, rightParen, error, eof]

/-- The name of a kind in messages. -/
def text : Kind → Bytes
  | space => utf8 "space"
  | newline => utf8 "newline"
  | comma => utf8 "','"
  | comment => utf8 "comment"
  | docComment => utf8 "documentation comment"
  | string => utf8 "string"
  | textBlock => utf8 "text block"
  | number => utf8 "number"
  | identifier => utf8 "identifier"
  | dot => utf8 "'.'"
  | pound => utf8 "'#'"
  | dollar => utf8 "'$'"
  | .at => utf8 "'@'"
  | colon => utf8 "':'"
  | walrus => utf8 "':='"
  | equal => utf8 "'='"
  | leftBrace => utf8 "'\x7b'"
  | rightBrace => utf8 "'\x7d'"
  | leftBracket => utf8 "'['"
  | rightBracket => utf8 "']'"
  | leftParen => utf8 "'('"
  | rightParen => utf8 "')'"
  | error => utf8 "error"
  | eof => utf8 "end of file"

/-- The kinds that may stand between any two others without a meaning. -/
def isTrivia : Kind → Bool
  | space | newline | comma | comment => true
  | _ => false

/-- Trivia and documentation comments. -/
def isGap (k : Kind) : Bool := k.isTrivia || k == docComment

end Kind

/-! ## Contents -/

/-- What a token stands for: its kind, with the text, number or fault that
tokens of the kind carry. -/
inductive Content where
  | space
  | newline
  | comma
  | comment
  /-- The line behind the slashes and one space. -/
  | docComment (text : Bytes)
  /-- The text that the literal stands for. -/
  | string (text : Bytes)
  | textBlock (text : Bytes)
  | number (value : Number)
  | identifier
  | dot
  | pound
  | dollar
  | at
  | colon
  | walrus
  | equal
  | leftBrace
  | rightBrace
  | leftBracket
  | rightBracket
  | leftParen
  | rightParen
  | error (fault : Fault)
  | eof
  deriving DecidableEq, Repr

namespace Content

def kind : Content → Kind
  | space => .space
  | newline => .newline
  | comma => .comma
  | comment => .comment
  | docComment _ => .docComment
  | string _ => .string
  | textBlock _ => .textBlock
  | number _ => .number
  | identifier => .identifier
  | dot => .dot
  | pound => .pound
  | dollar => .dollar
  | .at => .at
  | colon => .colon
  | walrus => .walrus
  | equal => .equal
  | leftBrace => .leftBrace
  | rightBrace => .rightBrace
  | leftBracket => .leftBracket
  | rightBracket => .rightBracket
  | leftParen => .leftParen
  | rightParen => .rightParen
  | error _ => .error
  | eof => .eof

/-- The text of a literal or comment, or the message of a fault. -/
def text? : Content → Option Bytes
  | docComment text | string text | textBlock text => some text
  | error fault => some fault.message
  | _ => none

def number? : Content → Option Number
  | number value => some value
  | _ => none

def fault? : Content → Option Fault
  | error fault => some fault
  | _ => none

end Content

end Token

/-! ## Tokens -/

/-- What stands somewhere, its text, its location, and that of its last byte. -/
structure Token where
  content : Token.Content
  lexeme : Bytes
  start : Location
  last : Location
  deriving DecidableEq, Repr

namespace Token

def kind (t : Token) : Kind := t.content.kind

/-- The end of tokens that have none of their own. -/
def missingEof : Token := ⟨.eof, [], .nowhere, .nowhere⟩

/-- What a token is called in messages. Names, numbers and strings are shown
as they are written. -/
def describe (t : Token) : Bytes :=
  match t.kind with
  | .identifier | .number | .string => t.kind.text ++ utf8 " '" ++ t.lexeme ++ utf8 "'"
  | kind => kind.text

end Token

end ShapeTraits
