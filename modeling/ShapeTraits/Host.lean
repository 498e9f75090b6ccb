-- What a run finds around it, and what it leaves there.
import ShapeTraits.Files

namespace ShapeTraits

/-- The files, the two output streams so far, the time of day in milliseconds
since the epoch, whether the error stream is a terminal, and the settings of
the environment: the kind of terminal and the log specification. The streams are
apart from the files: no path leads to one of them, as that of a device such as
`/dev/stdout` does, so that what is written to a file never shows on a stream. -/
structure Host where
  files : Files
  stdout : Bytes
  stderr : Bytes
  clock : Int
  isTerminal : Bool
  terminal : Option Bytes
  logSpec : Option Bytes
  deriving DecidableEq, Repr

namespace Host

/-- With more text on the output stream. -/
def print (h : Host) (text : Bytes) : Host := { h with stdout := h.stdout ++ text }

/-- With more text on the error stream. -/
def complain (h : Host) (text : Bytes) : Host := { h with stderr := h.stderr ++ text }

/-- Colors show on a terminal that is not known to be a dumb one. -/
def showsColors (h : Host) : Bool :=
  h.isTerminal &&
    match h.terminal with
    | some kind => kind != utf8 "dumb"
    | none => false

end Host

end ShapeTraits
