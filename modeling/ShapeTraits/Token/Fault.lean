-- What can be wrong with the text of a token.
import ShapeTraits.Token.Escape

namespace ShapeTraits

/-- Why some bytes are no token. -/
inductive Fault where
  /-- A byte that no token begins with. -/
  | unexpectedByte (byte : UInt8)
  /-- A minus sign without a digit. -/
  | missingDigit
  | leadingZero
  /-- A decimal point without a digit after it. -/
  | missingFraction
  /-- An exponent without a digit. -/
  | missingExponent
  /-- A letter right behind a number. -/
  | strayLetter
  /-- A string without its closing quote. -/
  | openString
  /-- A text block whose first line holds text. -/
  | textBlockStart
  /-- A text block without its closing quotes. -/
  | openTextBlock
  | escape (fault : Escape.Fault)
  deriving DecidableEq, Repr

/-- The message of a fault. -/
def Fault.message : Fault → Bytes
  | unexpectedByte byte => utf8 "Unexpected character '" ++ [byte] ++ utf8 "'"
  | missingDigit => utf8 "Expected a digit after '-'"
  | leadingZero => utf8 "Numbers cannot have leading zeros"
  | missingFraction => utf8 "Expected a digit after the decimal point"
  | missingExponent => utf8 "Expected a digit in the exponent"
  | strayLetter => utf8 "Invalid character in number literal"
  | openString => utf8 "Unterminated string literal"
  | textBlockStart => utf8 "Text block must start with a line break after the opening \"\"\""
  | openTextBlock => utf8 "Unterminated text block"
  | escape fault => fault.message

end ShapeTraits
