-- The escapes of string literals. A literal's text is a run of items: a byte
-- that is not a backslash, or a backslash and what it takes with it.
import ShapeTraits.Bytes

namespace ShapeTraits.Escape

/-- Why a text is not a run of items. -/
inductive Fault where
  /-- A backslash is the last byte. -/
  | unfinished
  /-- No four hexadecimal digits follow. -/
  | badUnit
  /-- Half of a surrogate pair stands alone. -/
  | loneSurrogate
  /-- A byte that no escape begins with. -/
  | unknown (byte : UInt8)
  deriving DecidableEq, Repr

/-- The message of a fault. -/
def Fault.message : Fault → Bytes
  | unfinished => utf8 "Unterminated escape sequence"
  | badUnit => utf8 "Invalid unicode escape: expected four hex digits after \\u"
  | loneSurrogate => utf8 "Invalid unicode escape: unpaired surrogate"
  | unknown byte => utf8 "Invalid escape sequence: \\" ++ [byte]

/-- The byte that a backslash and a letter or sign stand for. -/
def named? (b : UInt8) : Option UInt8 :=
  if b = Byte.quote ∨ b = Byte.apostrophe ∨ b = Byte.backslash ∨ b = Byte.slash then some b
  else if b = 0x62 then some 0x08
  else if b = 0x66 then some 0x0c
  else if b = 0x6e then some Byte.lineFeed
  else if b = 0x72 then some Byte.carriageReturn
  else if b = 0x74 then some Byte.tab
  else none

/-! ## Code units -/

/-- The letter that begins the escape of a code unit. -/
abbrev unitMark : UInt8 := 0x75

/-- The value of the first four bytes as hexadecimal digits. -/
def codeUnit? : Bytes → Option Nat
  | a :: b :: c :: d :: _ => do
    let a ← Byte.hexValue? a
    let b ← Byte.hexValue? b
    let c ← Byte.hexValue? c
    let d ← Byte.hexValue? d
    return ((a * 16 + b) * 16 + c) * 16 + d
  | _ => none

def isHighSurrogate (unit : Nat) : Bool := 0xd800 ≤ unit && unit ≤ 0xdbff

def isLowSurrogate (unit : Nat) : Bool := 0xdc00 ≤ unit && unit ≤ 0xdfff

/-- The code point of a surrogate pair. -/
def combine (high low : Nat) : Nat := 0x10000 + (high - 0xd800) * 0x400 + (low - 0xdc00)

/-- The low surrogate whose escape comes first. -/
def lowSurrogate? : Bytes → Option Nat
  | b :: c :: rest =>
    if b = Byte.backslash ∧ c = unitMark then (codeUnit? rest).filter isLowSurrogate else none
  | _ => none

/-- What the digits after the mark of a code unit stand for, and how many
bytes it takes after the backslash. -/
def unicode (digits : Bytes) : Except Fault (Bytes × Nat) :=
  match codeUnit? digits with
  | none => .error .badUnit
  | some unit =>
    if isHighSurrogate unit then
      match lowSurrogate? (digits.drop 4) with
      | some low => .ok (encodeCodePoint (combine unit low), 11)
      | none => .error .loneSurrogate
    else if isLowSurrogate unit then .error .loneSurrogate
    else .ok (encodeCodePoint unit, 5)

/-! ## Items -/

/-- What the item that begins with a byte stands for, and how many of the
bytes after it belong to it. A backslash before a line end stands for
nothing. -/
def item (first : UInt8) (rest : Bytes) : Except Fault (Bytes × Nat) :=
  if first ≠ Byte.backslash then .ok ([first], 0)
  else
    match rest with
    | [] => .error .unfinished
    | b :: after =>
      match named? b with
      | some meant => .ok ([meant], 1)
      | none =>
        if b = Byte.lineFeed then .ok ([], 1)
        else if b = Byte.carriageReturn then
          .ok ([], if after.head? = some Byte.lineFeed then 2 else 1)
        else if b = unitMark then unicode after
        else .error (.unknown b)

/-- What a text stands for, or the fault of its first item that is none. -/
def decode : Bytes → Except Fault Bytes
  | [] => .ok []
  | first :: rest =>
    match item first rest with
    | .error fault => .error fault
    | .ok (meant, taken) => (decode (rest.drop taken)).map (meant ++ ·)
termination_by text => text.length
decreasing_by exact Nat.lt_succ_of_le (by rw [List.length_drop]; exact Nat.sub_le _ _)

/-- What a text stands for, behind what was there before. -/
def decodeOnto (before text : Bytes) : Except Fault Bytes := (decode text).map (before ++ ·)

end ShapeTraits.Escape
