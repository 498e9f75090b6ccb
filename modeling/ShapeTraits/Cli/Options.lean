-- The arguments of the tool itself.
import ShapeTraits.Log.Options
import ShapeTraits.Number

namespace ShapeTraits.Cli

/-- What to read and how. -/
structure Options where
  path : Bytes
  pretty : Bool
  limit : Nat
  deriving DecidableEq, Repr

/-- What is wrong with some arguments. -/
inductive UsageError where
  | badDepth (text : Bytes)
  | unknownOption (argument : Bytes)
  | extraArgument (argument : Bytes)
  | noFile
  deriving DecidableEq, Repr

def UsageError.message : UsageError → Bytes
  | badDepth text => utf8 "invalid value for --max-depth: " ++ text
  | unknownOption argument => utf8 "unknown option: " ++ argument
  | extraArgument argument => utf8 "unexpected argument: " ++ argument
  | noFile => utf8 "no input file"

namespace Options

/-- How deep values may nest unless the arguments say otherwise. -/
def standardLimit : Nat := 64

/-- No file yet. -/
def initial : Options := ⟨[], false, standardLimit⟩

/-- A depth is a positive number of digits that fits into 64 bits. -/
def depth? (text : Bytes) : Option Nat :=
  if text ≠ [] ∧ text.all Byte.isDigit then
    let value := Bytes.digitsValue text
    if 0 < value ∧ value < Number.unsignedLimit then some value else none
  else none

/-- The options with one more argument. Those of the log change nothing. -/
def add (o : Options) (argument : Bytes) : Except UsageError Options :=
  if argument = utf8 "--pretty" then .ok { o with pretty := true }
  else
    match Bytes.after? (utf8 "--max-depth=") argument with
    | some text =>
      match depth? text with
      | some limit => .ok { o with limit }
      | none => .error (.badDepth text)
    | none =>
      if Log.isLogArgument argument then .ok o
      else if argument.head? = some Byte.minus then .error (.unknownOption argument)
      else if o.path = [] then .ok { o with path := argument }
      else .error (.extraArgument argument)

/-- The options of all arguments. -/
def ofArguments (arguments : List Bytes) : Except UsageError Options :=
  match arguments.foldlM add initial with
  | .error e => .error e
  | .ok o => if o.path = [] then .error .noFile else .ok o

end Options

end ShapeTraits.Cli
