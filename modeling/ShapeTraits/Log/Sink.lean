-- Where the messages of the log go: the error stream, a file, or a list in
-- memory.
import ShapeTraits.Host
import ShapeTraits.Log.Record

namespace ShapeTraits.Log

/-! ## Files -/

/-- An open log file. What is written waits until it is flushed or there is no
room for more. A file that is not appended to is written at its own position. -/
structure LogFile where
  names : List Bytes
  appends : Bool
  position : Nat
  waiting : Bytes
  deriving DecidableEq, Repr

namespace LogFile

/-- No more than this waits. -/
def capacity : Nat := 8191

/-- A line of this length or more never waits. -/
def longLine : Nat := 1024

/-- Opens a log file, which then is there, and empty unless lines are appended
to it. All files are plain ones: see `Host` on the paths of devices. -/
def open? (h : Host) (path : Bytes) (appends : Bool) : Option (LogFile × Host) :=
  (h.files.locate? path).map fun names =>
    let content := if appends then (h.files.content? names).getD [] else []
    (⟨names, appends, 0, []⟩, { h with files := h.files.put names content })

/-- A text with another one written over it from a position on. -/
def overwrite (old : Bytes) (position : Nat) (new : Bytes) : Bytes :=
  old.take position ++ List.replicate (position - old.length) 0 ++ new ++
    old.drop (position + new.length)

/-- Puts what waits into the file. -/
def flush (f : LogFile) (h : Host) : LogFile × Host :=
  if f.waiting = [] then (f, h)
  else
    let old := (h.files.content? f.names).getD []
    let new := if f.appends then old ++ f.waiting else overwrite old f.position f.waiting
    ({ f with position := f.position + f.waiting.length, waiting := [] },
      { h with files := h.files.put f.names new })

/-- Whether a line can wait behind what waits already, with room left for its
end. -/
def hasRoom (f : LogFile) (line : Bytes) : Bool :=
  line.length < longLine && f.waiting.length + line.length < capacity

/-- Adds a line. Where it cannot wait, it goes into the file at once, behind all
that waits. Its end waits in either case. -/
def add (f : LogFile) (line : Bytes) (h : Host) : LogFile × Host :=
  let longer := { f with waiting := f.waiting ++ line }
  let (f, h) := if f.hasRoom line then (longer, h) else longer.flush h
  ({ f with waiting := f.waiting ++ [Byte.lineFeed] }, h)

end LogFile

/-! ## Sinks -/

/-- A place for messages. -/
inductive Sink where
  | console (colors : Bool)
  | file (f : LogFile)
  /-- Keeps the messages, oldest first. -/
  | memory (records : List Record)
  deriving DecidableEq, Repr

namespace Sink

/-- Colors need a terminal that shows them. -/
def forConsole (h : Host) (colors : Bool) : Sink := console (colors && h.showsColors)

/-- Takes one message. Errors reach a file at once. -/
def write (r : Record) (s : Sink) (h : Host) : Sink × Host :=
  match s with
  | console colors => (s, h.complain (r.line colors false ++ [Byte.lineFeed]))
  | file f =>
    let (f, h) := f.add (r.line false true) h
    if .error ≤ r.level then
      let (f, h) := f.flush h
      (file f, h)
    else (file f, h)
  | memory records => (memory (records ++ [r]), h)

/-- Lets nothing wait. -/
def flush (s : Sink) (h : Host) : Sink × Host :=
  match s with
  | file f =>
    let (f, h) := f.flush h
    (file f, h)
  | _ => (s, h)

/-- Keeps nothing of what is in memory. -/
def clearMemory : Sink → Sink
  | memory _ => memory []
  | s => s

/-- Does something with every sink, in turn. -/
def each (act : Sink → Host → Sink × Host) : List Sink → Host → List Sink × Host
  | [], h => ([], h)
  | s :: rest, h =>
    let (s, h) := act s h
    let (rest, h) := each act rest h
    (s :: rest, h)

end Sink

end ShapeTraits.Log
