-- The token that some bytes begin with. Only the bytes ahead decide it, and
-- every token but the end takes at least one of them.
import ShapeTraits.Token
import ShapeTraits.Token.Numeral
import ShapeTraits.Token.TextBlock

namespace ShapeTraits

/-- What the bytes ahead begin with, and how many of them it takes. -/
structure Scan where
  content : Token.Content
  width : Nat
  deriving DecidableEq, Repr

namespace Scan

/-! ## Comments -/

/-- A line comment, from its two slashes to the end of the line. Exactly three
slashes make a documentation comment, whose text goes without the slashes and
one space behind them. -/
def comment (afterSlashes : Bytes) : Scan :=
  let line := afterSlashes.takeWhile (!Byte.isLineEnd ·)
  let content : Token.Content :=
    match line with
    | [] => .comment
    | b :: text =>
      if b ≠ Byte.slash ∨ text.head? = some Byte.slash then .comment
      else if text.head? = some Byte.space then .docComment (text.drop 1)
      else .docComment text
  ⟨content, 2 + line.length⟩

/-! ## Strings and text blocks -/

/-- How far a literal's body reaches, and whether its closing quotes follow. -/
structure Body where
  width : Nat
  isClosed : Bool
  deriving DecidableEq, Repr

/-- A body with `count` more bytes before it. -/
def Body.after (count : Nat) (body : Body) : Body := ⟨count + body.width, body.isClosed⟩

/-- The body of a literal that `isClose` ends. A backslash hides the byte after
it, and counts for two even as the last byte. -/
def body (isClose : Bytes → Bool) : Bytes → Body
  | [] => ⟨0, false⟩
  | b :: rest =>
    if isClose (b :: rest) then ⟨0, true⟩
    else if b = Byte.backslash then
      match rest with
      | [] => ⟨2, false⟩
      | _ :: rest => (body isClose rest).after 2
    else (body isClose rest).after 1

/-- One quote. -/
def closesString : Bytes → Bool
  | b :: _ => b == Byte.quote
  | [] => false

/-- Three quotes. -/
def closesTextBlock : Bytes → Bool
  | a :: b :: c :: _ => a == Byte.quote && b == Byte.quote && c == Byte.quote
  | _ => false

/-- A literal of a given width, unless a fault in its escapes spoils it. -/
def decoded (content : Bytes → Token.Content) (text : Bytes) (width : Nat) : Scan :=
  match Escape.decode text with
  | .ok meant => ⟨content meant, width⟩
  | .error fault => ⟨.error (.escape fault), width⟩

/-- A quoted string, from behind its first quote. -/
def string (afterQuote : Bytes) : Scan :=
  let found := body closesString afterQuote
  if found.isClosed then decoded .string (afterQuote.take found.width) (found.width + 2)
  else ⟨.error .openString, found.width + 1⟩

/-- How many bytes the line break takes that a text begins with. -/
def lineBreakWidth : Bytes → Nat
  | [] => 0
  | b :: rest =>
    if b = Byte.lineFeed then 1
    else if b = Byte.carriageReturn ∧ rest.head? = some Byte.lineFeed then 2
    else 0

/-- A text block, from behind its first three quotes. -/
def textBlock (afterQuotes : Bytes) : Scan :=
  let opening := lineBreakWidth afterQuotes
  if opening = 0 then ⟨.error .textBlockStart, 3⟩
  else
    let text := afterQuotes.drop opening
    let found := body closesTextBlock text
    if found.isClosed then
      decoded .textBlock (TextBlock.layOut (text.take found.width)) (found.width + opening + 6)
    else ⟨.error .openTextBlock, found.width + opening + 3⟩

/-- A string or, behind three quotes, a text block. -/
def quoted (afterQuote : Bytes) : Scan :=
  match afterQuote with
  | a :: b :: rest =>
    if a = Byte.quote ∧ b = Byte.quote then textBlock rest else string afterQuote
  | _ => string afterQuote

/-! ## Numbers and signs -/

def numeral (text : Bytes) : Scan :=
  match Numeral.read text with
  | .ok n => ⟨.number n.value, n.text.length⟩
  | .error (fault, width) => ⟨.error fault, width⟩

/-- What a single sign stands for. -/
def signContent (b : UInt8) : Token.Content :=
  if b = 0x40 then .at
  else if b = Byte.colon then .colon
  else if b = Byte.equals then .equal
  else if b = Byte.dot then .dot
  else if b = 0x23 then .pound
  else if b = 0x24 then .dollar
  else if b = 0x7b then .leftBrace
  else if b = 0x7d then .rightBrace
  else if b = 0x5b then .leftBracket
  else if b = 0x5d then .rightBracket
  else if b = 0x28 then .leftParen
  else if b = 0x29 then .rightParen
  else .error (.unexpectedByte b)

/-- A token of one or two signs, or a byte that begins none. -/
def sign (first : UInt8) (rest : Bytes) : Scan :=
  if first = Byte.colon ∧ rest.head? = some Byte.equals then ⟨.walrus, 2⟩
  else ⟨signContent first, 1⟩

/-! ## All tokens -/

/-- The token that begins with a byte. -/
def token (first : UInt8) (rest : Bytes) : Scan :=
  if Byte.isBlank first then ⟨.space, 1 + (rest.takeWhile Byte.isBlank).length⟩
  else if first = Byte.lineFeed then ⟨.newline, 1⟩
  else if first = Byte.carriageReturn ∧ rest.head? = some Byte.lineFeed then ⟨.newline, 2⟩
  else if first = Byte.comma then ⟨.comma, 1⟩
  else if first = Byte.slash ∧ rest.head? = some Byte.slash then comment (rest.drop 1)
  else if Byte.isIdentifierStart first then
    ⟨.identifier, 1 + (rest.takeWhile Byte.isIdentifierContinue).length⟩
  else if Byte.isDigit first ∨ first = Byte.minus then numeral (first :: rest)
  else if first = Byte.quote then quoted rest
  else sign first rest

/-- The token that some text begins with, or the end without any text. -/
def next : Bytes → Scan
  | [] => ⟨.eof, 0⟩
  | first :: rest => token first rest

end Scan

end ShapeTraits
