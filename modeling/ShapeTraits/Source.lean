-- A named document in memory: its bytes by offset, the location of an offset,
-- and its lines, which an index of their starts finds.
import ShapeTraits.Location

namespace ShapeTraits

/-- A document and the name it is reported under. -/
structure Source where
  file : Bytes
  content : Bytes
  deriving DecidableEq, Repr

namespace Source

/-- The byte at an offset, and zero past the end. -/
def byteAt (s : Source) (offset : Nat) : UInt8 := s.content.getD offset 0

/-- The bytes from `start` up to `stop`, as far as there are any. -/
def slice (s : Source) (start stop : Nat) : Bytes := (s.content.take stop).drop start

/-! ## The line index -/

/-- The offsets behind the line feeds of a text that starts at an offset. -/
def startsBehind (offset : Nat) : Bytes → List Nat
  | [] => []
  | b :: rest =>
    if b = Byte.lineFeed then (offset + 1) :: startsBehind (offset + 1) rest
    else startsBehind (offset + 1) rest

/-- The offsets at which the lines start: the start of the document, and behind every
line feed. -/
def lineStarts (s : Source) : Array Nat := (0 :: startsBehind 0 s.content).toArray

/-- Where the first of `count` entries from `first` on stands that does not satisfy `p`,
if those that do come first. The entries are halved until none is left. -/
def partitionPoint (p : Nat → Bool) (entries : Array Nat) (first count : Nat) : Nat :=
  if count = 0 then first
  else
    let half := count / 2
    if p (entries.getD (first + half) 0) then
      partitionPoint p entries (first + half + 1) (count - half - 1)
    else partitionPoint p entries first half
termination_by count
decreasing_by all_goals omega

/-- The location of the byte at an offset: the last line that starts there or before it,
and the bytes since. Past the end the last line goes on. -/
def locate (s : Source) (offset : Nat) : Location :=
  let starts := s.lineStarts
  let number := partitionPoint (· ≤ offset) starts 0 starts.size
  { file := s.file
    line := UInt32.ofNat number
    column := UInt32.ofNat (offset - starts.getD (number - 1) 0) + 1
    offset := UInt32.ofNat offset
    length := 1 }

/-- A line without a carriage return at its end. -/
def withoutReturn (line : Bytes) : Bytes :=
  if line.getLast? = some Byte.carriageReturn then line.dropLast else line

/-- The text of a line counted from one, without its line end; empty for a line
that is not there. -/
def line (s : Source) (number : Nat) : Bytes :=
  let starts := s.lineStarts
  if number = 0 ∨ starts.size < number then []
  else withoutReturn ((s.content.drop (starts.getD (number - 1) 0)).takeWhile (· ≠ Byte.lineFeed))

end Source

end ShapeTraits
