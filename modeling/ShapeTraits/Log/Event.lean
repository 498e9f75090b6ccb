-- What a run has to tell: each event has its module, its level and its
-- message.
import ShapeTraits.Location
import ShapeTraits.Log.Record
import ShapeTraits.Token.Fault

namespace ShapeTraits.Log

/-- What can happen on the way from a document to its statements. -/
inductive Event where
  /-- Some bytes are no token. -/
  | badToken (fault : Fault) (location : Location)
  /-- All of a document has become tokens. -/
  | tokenized (file : Bytes) (tokens errors : Nat)
  /-- Documentation stands before something that takes none. -/
  | strayDocs (location : Location)
  /-- A name is left for later to resolve. -/
  | deferred (name : Bytes) (location : Location)
  | bareTrait (trait : Bytes) (location : Location)
  | valueTrait (trait : Bytes) (location : Location)
  /-- A statement applies some traits. -/
  | applied (target : Bytes) (traits : Nat)
  | loading (path : Bytes)
  | failed (path : Bytes)
  /-- All statements of a document have been read. -/
  | finished (statements references : Nat)
  deriving DecidableEq, Repr

namespace Event

def module : Event → Bytes
  | badToken .. | tokenized .. => utf8 "lexer"
  | loading _ | failed _ | finished .. => utf8 "cli"
  | _ => utf8 "parser"

def level : Event → Level
  | badToken .. | applied .. => .debug
  | strayDocs _ => .warn
  | loading _ | finished .. => .info
  | failed _ => .error
  | _ => .trace

def message : Event → Bytes
  | badToken fault location => fault.message ++ utf8 " at " ++ location.text
  | tokenized file tokens errors =>
    utf8 "Tokenized " ++ file ++ utf8 ": " ++ Bytes.ofNat tokens ++ utf8 " tokens, " ++
      Bytes.ofNat errors ++ utf8 " errors"
  | strayDocs location =>
    location.text ++
      utf8 ": documentation comment is not attached to a shape or member and was ignored"
  | deferred name location =>
    utf8 "Deferring reference '" ++ name ++ utf8 "' at " ++ location.text
  | bareTrait trait location => utf8 "Annotation trait @" ++ trait ++ utf8 " at " ++ location.text
  | valueTrait trait location => utf8 "Value trait @" ++ trait ++ utf8 " at " ++ location.text
  | applied target traits =>
    utf8 "apply " ++ target ++ utf8 ": " ++ Bytes.ofNat traits ++ utf8 " trait(s)"
  | loading path => utf8 "Loading " ++ path
  | failed path => utf8 "Failed to parse " ++ path
  | finished statements references =>
    utf8 "Parsed " ++ Bytes.ofNat statements ++ utf8 " apply statement(s), " ++
      Bytes.ofNat references ++ utf8 " deferred reference(s)"

/-- The module of this library that tells of an event. It stands in the lines of the log as
the file of the event's origin, and is the path of no source file. -/
def file : Event → Bytes
  | badToken .. | tokenized .. => utf8 "Lexer.lean"
  | strayDocs _ => utf8 "Cursor.lean"
  | deferred .. => utf8 "Resolver.lean"
  | bareTrait .. | valueTrait .. => utf8 "Trait.lean"
  | applied .. => utf8 "Apply.lean"
  | loading _ | failed _ | finished .. => utf8 "Run.lean"

/-- The number of an event among those of its module. It stands in the lines of the log as
the line of the event's origin, and is no line of any file. -/
def number : Event → Nat
  | tokenized .. | valueTrait .. | failed _ => 2
  | finished .. => 3
  | _ => 1

/-- Where an event comes from. -/
def origin (e : Event) : Origin := ⟨e.file, e.number⟩

/-- The message of an event at a time. -/
def record (e : Event) (time : Int) : Record :=
  ⟨e.level, e.module, e.message, some e.origin, time⟩

end Event

end ShapeTraits.Log
