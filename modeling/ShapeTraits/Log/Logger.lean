-- The log: a filter for messages and the sinks that take them.
import ShapeTraits.Log.Event
import ShapeTraits.Log.Filter
import ShapeTraits.Log.Sink

namespace ShapeTraits.Log

/-- How the log is set up. -/
structure Config where
  level : Level
  filterSpec : Bytes
  file : Bytes
  console : Bool
  colors : Bool
  deriving DecidableEq, Repr

/-- Warnings and errors go to the console. -/
def Config.standard : Config := ⟨.warn, [], [], true, true⟩

/-- A level below which nothing is looked at, the filter, and the sinks. -/
structure Logger where
  level : Level
  filter : Filter
  sinks : List Sink
  deriving DecidableEq, Repr

namespace Logger

/-- A log without sinks. -/
def initial : Logger := ⟨.info, .atLevel .info, []⟩

/-! ## Settings -/

/-- The filter of a configuration. A specification can raise the level of the
modules it does not name only up to the configured one. -/
def configuredFilter (level : Level) (spec : Bytes) : Filter :=
  if spec = [] then .atLevel level
  else
    let filter := (Filter.atLevel level).specify spec
    if level ≤ filter.fallback then filter.withFallback level else filter

/-- The sinks of a configuration: the console first, then the file. -/
def configuredSinks (c : Config) (h : Host) : List Sink × Host :=
  let console := if c.console then [Sink.forConsole h c.colors] else []
  if c.file = [] then (console, h)
  else
    match LogFile.open? h c.file true with
    | some (f, h) => (console ++ [.file f], h)
    | none =>
      (console, h.complain (utf8 "warning: could not open log file: " ++ c.file ++ utf8 "\n"))

/-- Writes out what waits. -/
def flush (l : Logger) (h : Host) : Logger × Host :=
  let (sinks, h) := Sink.each Sink.flush l.sinks h
  ({ l with sinks }, h)

/-- Sets the log up anew. The sinks it had are closed. -/
def init (c : Config) (l : Logger) (h : Host) : Logger × Host :=
  let (sinks, h) := configuredSinks c h
  let (_, h) := l.flush h
  let filter := configuredFilter c.level c.filterSpec
  (⟨filter.lowest, filter, sinks⟩, h)

/-- One level for all modules that have none of their own. -/
def setLevel (l : Logger) (level : Level) : Logger :=
  { l with level, filter := l.filter.withFallback level }

/-- The filter of a specification. -/
def setFilter (l : Logger) (spec : Bytes) : Logger :=
  let filter := l.filter.specify spec
  { l with level := filter.lowest, filter }

/-- With one more sink. -/
def addSink (l : Logger) (s : Sink) : Logger := { l with sinks := l.sinks ++ [s] }

/-- Without sinks. Those it had are closed. -/
def clearSinks (l : Logger) (h : Host) : Logger × Host :=
  let (_, h) := l.flush h
  ({ l with sinks := [] }, h)

/-- With nothing kept in memory. -/
def clearMemory (l : Logger) : Logger := { l with sinks := l.sinks.map Sink.clearMemory }

/-! ## Messages -/

/-- Whether a message of a level and module is to be written. -/
def shouldLog (l : Logger) (level : Level) (name : Bytes) : Bool :=
  l.level ≤ level && l.filter.allows level name

/-- Gives a message to every sink. -/
def log (l : Logger) (r : Record) (h : Host) : Logger × Host :=
  let (sinks, h) := Sink.each (Sink.write r) l.sinks h
  ({ l with sinks }, h)

/-- Gives a message to every sink if it is to be written. -/
def offer (l : Logger) (r : Record) (h : Host) : Logger × Host :=
  if l.shouldLog r.level r.module then l.log r h else (l, h)

/-- Tells of some events, in their order. -/
def tell (l : Logger) : List Event → Host → Logger × Host
  | [], h => (l, h)
  | e :: rest, h =>
    let (l, h) := l.offer (e.record h.clock) h
    l.tell rest h

end Logger

end ShapeTraits.Log
