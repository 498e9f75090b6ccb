-- Messages of the log and their lines: the time of day, the level, the module
-- and the message.
import ShapeTraits.Log.Level

namespace ShapeTraits.Log

/-- The file and line that a message comes from. -/
structure Origin where
  file : Bytes
  line : Int
  deriving DecidableEq, Repr

/-- A message, with its time in milliseconds. -/
structure Record where
  level : Level
  module : Bytes
  message : Bytes
  origin : Option Origin
  time : Int
  deriving DecidableEq, Repr

/-! ## Time of day -/

/-- A number of at least two digits. -/
def twoDigits (n : Nat) : Bytes := Bytes.padStart 2 Byte.zero (Bytes.ofNat n)

/-- The time of day, `hours:minutes:seconds.milliseconds`. Milliseconds and
whole seconds both go toward zero, so before the epoch the last part keeps its
sign. Local time is taken to be UTC: there is no time zone here. -/
def timeOfDay (time : Int) : Bytes :=
  let second := (time.tdiv 1000 % 86400).toNat
  twoDigits (second / 3600) ++ [Byte.colon] ++ twoDigits (second / 60 % 60) ++ [Byte.colon] ++
    twoDigits (second % 60) ++ [Byte.dot] ++
    Bytes.padStart 3 Byte.zero (Bytes.ofInt (time.tmod 1000))

/-! ## Lines -/

/-- What turns a terminal to the color of a level. -/
def Level.color : Level → Bytes
  | trace => utf8 "\x1b[90m"
  | debug => utf8 "\x1b[36m"
  | info => utf8 "\x1b[32m"
  | warn => utf8 "\x1b[33m"
  | error => utf8 "\x1b[31m"
  | fatal => utf8 "\x1b[1;31m"
  | off => []

/-- What turns a terminal back. -/
def resetColor : Bytes := utf8 "\x1b[0m"

namespace Origin

/-- The name of the file without its directories. -/
def baseName (file : Bytes) : Bytes :=
  (file.reverse.takeWhile (fun b => b != Byte.slash && b != Byte.backslash)).reverse

def text (o : Origin) : Bytes :=
  utf8 "  (" ++ baseName o.file ++ [Byte.colon] ++ Bytes.ofInt o.line ++ utf8 ")"

end Origin

namespace Record

/-- The origin of a message that goes into detail. -/
def originText (r : Record) : Bytes :=
  match r.origin with
  | some origin => if r.level ≤ .debug then origin.text else []
  | none => []

/-- The line of a message without its end, with or without colors and origin. -/
def line (r : Record) (colors withOrigin : Bool) : Bytes :=
  let level := Bytes.padEnd 5 Byte.space r.level.text
  timeOfDay r.time ++ [Byte.space] ++
    (if colors then r.level.color ++ level ++ resetColor else level) ++
    [Byte.space] ++ Bytes.padEnd 7 Byte.space r.module ++ [Byte.space] ++ r.message ++
    if withOrigin then r.originText else []

end Record

end ShapeTraits.Log
