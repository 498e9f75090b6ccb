-- Diagnostics: a line that says what is wrong and where, then the line of the
-- document, and a caret below the place.
import ShapeTraits.ParseError
import ShapeTraits.Source

namespace ShapeTraits.Cli

/-- The blanks before the caret under a column: tabs below tabs, so that the
caret stands below its byte. -/
def caretIndent (line : Bytes) (column : Nat) : Bytes :=
  (line.take (column - 1)).map fun b => if b = Byte.tab then Byte.tab else Byte.space

/-- The line of the document and the caret, unless the line is empty. -/
def excerpt (s : Source) (l : Location) : Bytes :=
  match s.line l.line.toNat with
  | [] => []
  | line =>
    utf8 "    " ++ line ++ utf8 "\n    " ++ caretIndent line l.column.toNat ++ utf8 "^\n"

/-- A diagnostic of a given severity. -/
def diagnostic (s : Source) (l : Location) (severity message : Bytes) : Bytes :=
  l.text ++ utf8 ": " ++ severity ++ utf8 ": " ++ message ++ utf8 "\n" ++ excerpt s l

end ShapeTraits.Cli
