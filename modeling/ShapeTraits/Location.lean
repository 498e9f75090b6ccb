-- Where something stands in a document: a place counts exactly as the text
-- goes by, and a location is the fixed-width record of it that tokens, values
-- and diagnostics carry.
import ShapeTraits.Bytes

namespace ShapeTraits

/-! ## Places -/

/-- A position in a text: the lines begun before it, the bytes since the start
of its line, and the bytes since the start of the text, all from zero. -/
structure Place where
  line : Nat
  column : Nat
  offset : Nat
  deriving DecidableEq, Repr

namespace Place

/-- The start of a text. -/
def start : Place := ⟨0, 0, 0⟩

/-- The place after one more byte. A line feed begins a new line. -/
def step (p : Place) (b : UInt8) : Place :=
  if b = Byte.lineFeed then ⟨p.line + 1, 0, p.offset + 1⟩ else ⟨p.line, p.column + 1, p.offset + 1⟩

/-- The place after some text. -/
def past (p : Place) (text : Bytes) : Place := text.foldl step p

/-- The place `count` bytes further on the same line. -/
def skip (p : Place) (count : Nat) : Place := ⟨p.line, p.column + count, p.offset + count⟩

@[simp] theorem past_nil (p : Place) : p.past [] = p := rfl

@[simp] theorem past_append (p : Place) (a b : Bytes) : p.past (a ++ b) = (p.past a).past b :=
  List.foldl_append

end Place

/-! ## Locations -/

/-- The file, the line and column counted from one, the offset counted from
zero, and the length of what stands there. -/
structure Location where
  file : Bytes
  line : UInt32
  column : UInt32
  offset : UInt32
  length : UInt32
  deriving DecidableEq, Repr

namespace Location

/-- No place at all. -/
def nowhere : Location := ⟨[], 0, 0, 0, 0⟩

/-- The text `file:line:column`. -/
def text (l : Location) : Bytes :=
  l.file ++ [Byte.colon] ++ Bytes.ofNat l.line.toNat ++ [Byte.colon] ++ Bytes.ofNat l.column.toNat

end Location

/-- The location of `length` bytes that start at a place. -/
def Place.location (p : Place) (file : Bytes) (length : Nat) : Location where
  file := file
  line := UInt32.ofNat (p.line + 1)
  column := UInt32.ofNat p.column + 1
  offset := UInt32.ofNat p.offset
  length := UInt32.ofNat length

end ShapeTraits
