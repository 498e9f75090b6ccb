-- Byte strings. All text here is bytes: offsets, columns and lengths count
-- bytes, and nothing has to be valid UTF-8.

namespace ShapeTraits

/-- A string of bytes. -/
abbrev Bytes := List UInt8

/-- The UTF-8 bytes of a text. -/
def utf8 (text : String) : Bytes := text.toByteArray.data.toList

/-! ## Single bytes -/

namespace Byte

abbrev tab : UInt8 := 0x09
abbrev lineFeed : UInt8 := 0x0a
abbrev carriageReturn : UInt8 := 0x0d
abbrev space : UInt8 := 0x20
abbrev quote : UInt8 := 0x22
abbrev apostrophe : UInt8 := 0x27
abbrev plus : UInt8 := 0x2b
abbrev comma : UInt8 := 0x2c
abbrev minus : UInt8 := 0x2d
abbrev dot : UInt8 := 0x2e
abbrev slash : UInt8 := 0x2f
abbrev zero : UInt8 := 0x30
abbrev colon : UInt8 := 0x3a
abbrev equals : UInt8 := 0x3d
abbrev backslash : UInt8 := 0x5c
abbrev underscore : UInt8 := 0x5f

/-- A space or a tab. -/
def isBlank (b : UInt8) : Bool := b == space || b == tab

/-- A line feed or a carriage return. -/
def isLineEnd (b : UInt8) : Bool := b == lineFeed || b == carriageReturn

def isDigit (b : UInt8) : Bool := 0x30 ≤ b && b ≤ 0x39

def isLetter (b : UInt8) : Bool := (0x61 ≤ b && b ≤ 0x7a) || (0x41 ≤ b && b ≤ 0x5a)

/-- An identifier starts with a letter or an underscore. -/
def isIdentifierStart (b : UInt8) : Bool := isLetter b || b == underscore

/-- Digits may follow the first byte of an identifier. -/
def isIdentifierContinue (b : UInt8) : Bool := isIdentifierStart b || isDigit b

/-- The value of a hexadecimal digit of either case. -/
def hexValue? (b : UInt8) : Option Nat :=
  if isDigit b then some (b.toNat - 0x30)
  else if 0x61 ≤ b && b ≤ 0x66 then some (b.toNat - 0x61 + 10)
  else if 0x41 ≤ b && b ≤ 0x46 then some (b.toNat - 0x41 + 10)
  else none

/-- An ASCII letter in upper case; any other byte unchanged. -/
def toUpper (b : UInt8) : UInt8 := if 0x61 ≤ b && b ≤ 0x7a then b - 0x20 else b

/-- The decimal digit of a number below ten. -/
def ofDigit (n : Nat) : UInt8 := UInt8.ofNat (0x30 + n)

/-- The lower-case hexadecimal digit of a number below sixteen. -/
def ofHexDigit (n : Nat) : UInt8 := UInt8.ofNat (if n < 10 then 0x30 + n else 0x57 + n)

end Byte

namespace Bytes

/-! ## Pieces -/

/-- The pieces between the separators. There is one more piece than there are
separators. -/
def splitOn (separator : UInt8) : Bytes → List Bytes
  | [] => [[]]
  | b :: rest =>
    if b = separator then [] :: splitOn separator rest
    else
      match splitOn separator rest with
      | [] => [[b]]
      | piece :: pieces => (b :: piece) :: pieces

/-- The pieces with one separator between neighbours. -/
def joinWith (separator : Bytes) : List Bytes → Bytes
  | [] => []
  | [piece] => piece
  | piece :: pieces => piece ++ separator ++ joinWith separator pieces

/-- What follows `start`, if the bytes begin with it. -/
def after? : (start text : Bytes) → Option Bytes
  | [], text => some text
  | _ :: _, [] => none
  | s :: start, b :: text => if s = b then after? start text else none

/-- The bytes before the first separator and those after it; no second part
without a separator. -/
def cut (separator : UInt8) : Bytes → Bytes × Option Bytes
  | [] => ([], none)
  | b :: rest =>
    if b = separator then ([], some rest)
    else
      let (left, right) := cut separator rest
      (b :: left, right)

/-- Without the bytes at the end that satisfy `p`. -/
def dropTrailing (p : UInt8 → Bool) (text : Bytes) : Bytes := (text.reverse.dropWhile p).reverse

theorem dropTrailing_append (p : UInt8 → Bool) (text : Bytes) :
    ∃ dropped, text = dropTrailing p text ++ dropped ∧ ∀ b ∈ dropped, p b = true := by
  refine ⟨(text.reverse.takeWhile p).reverse, ?_, ?_⟩
  · rw [dropTrailing, ← List.reverse_append, List.takeWhile_append_dropWhile, List.reverse_reverse]
  · intro b hb
    rw [List.mem_reverse] at hb
    exact List.all_eq_true.mp List.all_takeWhile b hb

theorem dropWhile_append_of_stop {p : UInt8 → Bool} {b : UInt8} (hb : p b = false)
    (left right : Bytes) :
    (left ++ b :: right).dropWhile p = left.dropWhile p ++ b :: right := by
  induction left with
  | nil => simp [hb]
  | cons a left ih => by_cases ha : p a = true <;> simp [ha, ih]

/-- A byte that stays keeps what is before it. -/
theorem dropTrailing_append_of_stop {p : UInt8 → Bool} {b : UInt8} (hb : p b = false)
    (left right : Bytes) :
    dropTrailing p (left ++ b :: right) = left ++ b :: dropTrailing p right := by
  unfold dropTrailing
  rw [List.reverse_append, List.reverse_cons, List.append_assoc, List.singleton_append,
    dropWhile_append_of_stop hb]
  simp

/-- Without the bytes at either end that satisfy `p`. -/
def trim (p : UInt8 → Bool) (text : Bytes) : Bytes := dropTrailing p (text.dropWhile p)

/-- Fills up with `fill` at the end to at least `width` bytes. -/
def padEnd (width : Nat) (fill : UInt8) (text : Bytes) : Bytes :=
  text ++ List.replicate (width - text.length) fill

/-- Fills up with `fill` at the start to at least `width` bytes. -/
def padStart (width : Nat) (fill : UInt8) (text : Bytes) : Bytes :=
  List.replicate (width - text.length) fill ++ text

/-- Byte order: the first difference decides, and a start comes before the
whole. -/
def le : Bytes → Bytes → Bool
  | [], _ => true
  | _ :: _, [] => false
  | a :: x, b :: y => a < b || (a == b && le x y)

/-! ## Numbers as text -/

/-- The decimal digits of a number, without leading zeros. -/
def ofNat (n : Nat) : Bytes :=
  if n < 10 then [Byte.ofDigit n] else ofNat (n / 10) ++ [Byte.ofDigit (n % 10)]
termination_by n

/-- The decimal digits with a minus sign before a negative number. -/
def ofInt (n : Int) : Bytes :=
  if n < 0 then Byte.minus :: ofNat n.natAbs else ofNat n.natAbs

/-- The number that decimal digits stand for. -/
def digitsValue (digits : Bytes) : Nat :=
  digits.foldl (fun value d => value * 10 + (d.toNat - 0x30)) 0

/-- The lowest `count` hexadecimal digits of a number. -/
def hexOfNat : (count n : Nat) → Bytes
  | 0, _ => []
  | count + 1, n => hexOfNat count (n / 16) ++ [Byte.ofHexDigit (n % 16)]

end Bytes

/-! ## UTF-8 -/

/-- The UTF-8 form of a code point. -/
def encodeCodePoint (point : Nat) : Bytes :=
  if point < 0x80 then [UInt8.ofNat point]
  else if point < 0x800 then
    [UInt8.ofNat (0xc0 + point / 0x40), UInt8.ofNat (0x80 + point % 0x40)]
  else if point < 0x10000 then
    [UInt8.ofNat (0xe0 + point / 0x1000), UInt8.ofNat (0x80 + point / 0x40 % 0x40),
      UInt8.ofNat (0x80 + point % 0x40)]
  else
    [UInt8.ofNat (0xf0 + point / 0x40000), UInt8.ofNat (0x80 + point / 0x1000 % 0x40),
      UInt8.ofNat (0x80 + point / 0x40 % 0x40), UInt8.ofNat (0x80 + point % 0x40)]

end ShapeTraits
