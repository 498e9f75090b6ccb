-- How much a message matters.
import ShapeTraits.Bytes

namespace ShapeTraits.Log

/-- The levels, from the finest detail to the gravest error. The last one is
above every message and silences all. -/
inductive Level where
  | trace
  | debug
  | info
  | warn
  | error
  | fatal
  | off
  deriving DecidableEq, Repr

namespace Level

/-- The levels in their order. -/
def all : List Level := [trace, debug, info, warn, error, fatal, off]

/-- The position of a level in the order. -/
def rank : Level → Nat
  | trace => 0
  | debug => 1
  | info => 2
  | warn => 3
  | error => 4
  | fatal => 5
  | off => 6

instance : LE Level := ⟨fun a b => a.rank ≤ b.rank⟩

instance (a b : Level) : Decidable (a ≤ b) := inferInstanceAs (Decidable (a.rank ≤ b.rank))

/-- The lower of two levels. -/
def lower (a b : Level) : Level := if a ≤ b then a else b

/-- The name of a level. -/
def text : Level → Bytes
  | trace => utf8 "TRACE"
  | debug => utf8 "DEBUG"
  | info => utf8 "INFO"
  | warn => utf8 "WARN"
  | error => utf8 "ERROR"
  | fatal => utf8 "FATAL"
  | off => utf8 "OFF"

/-- The level of a name in either case. An unknown name means `info`. -/
def ofName (name : Bytes) : Level :=
  (all.find? (fun level => level.text == name.map Byte.toUpper)).getD info

end Level

end ShapeTraits.Log
