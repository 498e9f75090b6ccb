-- The arguments and the environment setting that set up the log.
import ShapeTraits.Log.Logger

namespace ShapeTraits.Log

/-! ## Arguments -/

/-- What an argument asks of the log. -/
inductive Request where
  | level (level : Level)
  | filter (spec : Bytes)
  | file (path : Bytes)
  /-- More detail, the more the higher the count. -/
  | verbosity (count : Nat)
  deriving DecidableEq, Repr

namespace Request

/-- The count of letters in `-v`, `-vv` and so on. An argument is taken to be shorter than
`2 ^ 31` bytes, so that its count is a machine integer as well. -/
def letters? : Bytes → Option Nat
  | dash :: v :: rest =>
    if dash = Byte.minus ∧ (v :: rest).all (· == 0x76) then some (rest.length + 1) else none
  | _ => none

/-- What an argument asks of the log, if it is one of its arguments. -/
def ofArgument? (argument : Bytes) : Option Request :=
  match Bytes.after? (utf8 "--log-level=") argument with
  | some name => some (level (Level.ofName name))
  | none =>
    match Bytes.after? (utf8 "--log-filter=") argument with
    | some spec => some (filter spec)
    | none =>
      match Bytes.after? (utf8 "--log-file=") argument with
      | some path => some (file path)
      | none =>
        if argument = utf8 "-q" ∨ argument = utf8 "--quiet" then some (level .error)
        else if argument = utf8 "--verbose" then some (verbosity 1)
        else (letters? argument).map verbosity

end Request

/-- The arguments of the log that are always written in the same way. -/
def fixedArguments : List Bytes := [utf8 "-q", utf8 "--quiet", utf8 "--verbose"]

/-- What the arguments of the log with a value begin with. -/
def valueStarts : List Bytes := [utf8 "--log-level=", utf8 "--log-filter=", utf8 "--log-file="]

/-- Whether an argument is one of the log's, whatever it asks for. -/
def isLogArgument (argument : Bytes) : Bool :=
  fixedArguments.contains argument || valueStarts.any (·.isPrefixOf argument) ||
    (Request.letters? argument).isSome

/-! ## All arguments together -/

/-- What some arguments ask for, taken together: the last level, filter and
file, and the greatest verbosity. -/
structure Wishes where
  level : Option Level
  filter : Option Bytes
  file : Option Bytes
  verbosity : Nat
  deriving DecidableEq, Repr

namespace Wishes

/-- Nothing is asked for. -/
def none : Wishes := ⟨.none, .none, .none, 0⟩

/-- One more request. -/
def add (w : Wishes) : Request → Wishes
  | .level level => { w with level := some level }
  | .filter spec => { w with filter := some spec }
  | .file path => { w with file := some path }
  | .verbosity count => { w with verbosity := max w.verbosity count }

/-- What the arguments of the log among some arguments ask for. -/
def ofArguments (arguments : List Bytes) : Wishes :=
  (arguments.filterMap Request.ofArgument?).foldl add none

/-- The level of a positive verbosity. -/
def levelOfVerbosity : Nat → Level
  | 1 => .info
  | 2 => .debug
  | _ => .trace

end Wishes

/-- The set-up of the log. A level that is asked for counts before a verbosity.
Only where neither they nor a filter are given does the setting of the
environment count: as a specification if it looks like one, and else as a
level. -/
def configure (arguments : List Bytes) (setting : Option Bytes) : Config :=
  let wishes := Wishes.ofArguments arguments
  let config : Config :=
    { Config.standard with filterSpec := wishes.filter.getD [], file := wishes.file.getD [] }
  match wishes.level with
  | some level => { config with level }
  | none =>
    if 0 < wishes.verbosity then { config with level := Wishes.levelOfVerbosity wishes.verbosity }
    else if wishes.filter.isSome then config
    else
      match setting with
      | none | some [] => config
      | some text =>
        if text.any (fun b => b == Byte.equals || b == Byte.comma) then
          { config with filterSpec := text }
        else { config with level := Level.ofName text }

end ShapeTraits.Log
