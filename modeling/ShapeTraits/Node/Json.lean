-- Values as JSON text, compact or indented. Members stand in the order of
-- insertion.
import ShapeTraits.Node

namespace ShapeTraits

/-! ## Strings -/

/-- How one byte stands inside a JSON string: quotes, backslashes and control
bytes are escaped, all else stands for itself. -/
def jsonEscape (b : UInt8) : Bytes :=
  if b = Byte.quote then utf8 "\\\""
  else if b = Byte.backslash then utf8 "\\\\"
  else if b = 0x08 then utf8 "\\b"
  else if b = 0x0c then utf8 "\\f"
  else if b = Byte.lineFeed then utf8 "\\n"
  else if b = Byte.carriageReturn then utf8 "\\r"
  else if b = Byte.tab then utf8 "\\t"
  else if b < 0x20 then utf8 "\\u" ++ Bytes.hexOfNat 4 b.toNat
  else [b]

/-- A string between quotes. -/
def jsonString (text : Bytes) : Bytes :=
  [Byte.quote] ++ text.flatMap jsonEscape ++ [Byte.quote]

/-! ## Layouts -/

/-- All on one line, or every item on a line of its own, indented by so many
spaces a level. -/
inductive Layout where
  | compact
  | indented (width : Nat)
  deriving DecidableEq, Repr

namespace Layout

/-- An indentation that is not positive means the compact layout. -/
def ofIndent (width : Int) : Layout := if 0 < width then indented width.toNat else compact

/-- The break before what stands at a level. -/
def lineBreak (level : Nat) : Layout → Bytes
  | compact => []
  | indented width => Byte.lineFeed :: List.replicate (width * level) Byte.space

/-- What stands between a key and its value. -/
def colon : Layout → Bytes
  | compact => utf8 ":"
  | indented _ => utf8 ": "

end Layout

/-! ## Values -/

namespace Node

mutual

/-- The text of a value that stands at a level. -/
def write (layout : Layout) (level : Nat) : Node → Bytes
  | null _ => utf8 "null"
  | boolean _ v => if v then utf8 "true" else utf8 "false"
  | number _ v => v.text
  | string _ v => jsonString v
  | array _ [] => utf8 "[]"
  | array _ (item :: rest) =>
    utf8 "[" ++ (layout.lineBreak (level + 1) ++ write layout (level + 1) item) ++
      writeItems layout (level + 1) rest ++ layout.lineBreak level ++ utf8 "]"
  | object _ ⟨[]⟩ => utf8 "\x7b\x7d"
  | object _ ⟨⟨k, _, v⟩ :: rest⟩ =>
    utf8 "\x7b" ++
      (layout.lineBreak (level + 1) ++ jsonString k ++ layout.colon ++
        write layout (level + 1) v) ++
      writeMembers layout (level + 1) rest ++ layout.lineBreak level ++ utf8 "\x7d"

/-- The items after the first, each behind its comma. -/
def writeItems (layout : Layout) (level : Nat) : List Node → Bytes
  | [] => []
  | item :: rest =>
    utf8 "," ++ (layout.lineBreak level ++ write layout level item) ++ writeItems layout level rest

/-- The members after the first, each behind its comma. -/
def writeMembers (layout : Layout) (level : Nat) : List (Entry Node) → Bytes
  | [] => []
  | ⟨k, _, v⟩ :: rest =>
    utf8 "," ++
      (layout.lineBreak level ++ jsonString k ++ layout.colon ++ write layout level v) ++
      writeMembers layout level rest

end

/-- The JSON text without any blanks. -/
def text (n : Node) : Bytes := n.write .compact 0

/-- The JSON text over several lines. -/
def prettyText (n : Node) (indent : Int) : Bytes := n.write (.ofIndent indent) 0

end Node

end ShapeTraits
