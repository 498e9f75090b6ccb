-- Text blocks: the indentation that all lines share is not part of the text,
-- nor are blanks at the end of a line.
import ShapeTraits.Source

namespace ShapeTraits.TextBlock

/-- Only spaces and tabs. -/
def isBlank (line : Bytes) : Bool := line.all Byte.isBlank

/-- How many blanks a line starts with. -/
def indent (line : Bytes) : Nat := (line.takeWhile Byte.isBlank).length

/-- The least indentation of the lines that count: those that are not blank,
and the last one always. -/
def margin : List Bytes → Nat
  | [] => 0
  | [last] => indent last
  | line :: rest => if isBlank line then margin rest else min (indent line) (margin rest)

/-- A line without the margin and without blanks at its end. -/
def layLine (margin : Nat) (line : Bytes) : Bytes :=
  if isBlank line then [] else Bytes.dropTrailing Byte.isBlank (line.drop margin)

/-- The lines of a body, each without its line end. -/
def bodyLines (body : Bytes) : List Bytes :=
  (Bytes.splitOn Byte.lineFeed body).map Source.withoutReturn

/-- The text of a block's body, its escapes not yet decoded. -/
def layOut (body : Bytes) : Bytes :=
  let lines := bodyLines body
  Bytes.joinWith [Byte.lineFeed] (lines.map (layLine (margin lines)))

end ShapeTraits.TextBlock
