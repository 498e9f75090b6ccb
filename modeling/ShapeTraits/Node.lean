-- Located values: null, booleans, numbers, strings, arrays and objects, each
-- with the location it was read from.
import ShapeTraits.KeyedList
import ShapeTraits.Number

namespace ShapeTraits

/-- A value and where it was written. -/
inductive Node where
  | null (location : Location)
  | boolean (location : Location) (value : Bool)
  | number (location : Location) (value : Number)
  | string (location : Location) (text : Bytes)
  | array (location : Location) (items : List Node)
  | object (location : Location) (members : KeyedList Node)

/-- The six kinds of values. -/
inductive Node.Kind where
  | null
  | boolean
  | number
  | string
  | array
  | object
  deriving DecidableEq, Repr

namespace Node

/-- The kinds in their order. -/
def Kind.all : List Kind := [.null, .boolean, .number, .string, .array, .object]

/-- The name of a kind. -/
def Kind.text : Kind → Bytes
  | .null => utf8 "null"
  | .boolean => utf8 "boolean"
  | .number => utf8 "number"
  | .string => utf8 "string"
  | .array => utf8 "array"
  | .object => utf8 "object"

def kind : Node → Kind
  | null _ => .null
  | boolean _ _ => .boolean
  | number _ _ => .number
  | string _ _ => .string
  | array _ _ => .array
  | object _ _ => .object

def location : Node → Location
  | null l | boolean l _ | number l _ | string l _ | array l _ | object l _ => l

/-- The same value at another location. What is inside stays where it is. -/
def relocate (l : Location) : Node → Node
  | null _ => null l
  | boolean _ v => boolean l v
  | number _ v => number l v
  | string _ v => string l v
  | array _ v => array l v
  | object _ v => object l v

/-! ## What a value holds -/

def bool? : Node → Option Bool
  | boolean _ v => some v
  | _ => none

def number? : Node → Option Number
  | number _ v => some v
  | _ => none

def string? : Node → Option Bytes
  | string _ v => some v
  | _ => none

def array? : Node → Option (List Node)
  | array _ v => some v
  | _ => none

def object? : Node → Option (KeyedList Node)
  | object _ v => some v
  | _ => none

/-- The value of a member. Only objects have members. -/
def get? (n : Node) (key : Bytes) : Option Node :=
  n.object?.bind fun members => (members.find? key).map (·.value)

/-! ## Equality -/

mutual

/-- Equal values of one kind; objects have the same keys in the same order.
Locations do not count. -/
def equal : Node → Node → Bool
  | null _, null _ => true
  | boolean _ a, boolean _ b => a == b
  | number _ a, number _ b => a.equal b
  | string _ a, string _ b => a == b
  | array _ a, array _ b => equalItems a b
  | object _ ⟨a⟩, object _ ⟨b⟩ => equalMembers a b
  | _, _ => false

def equalItems : List Node → List Node → Bool
  | [], [] => true
  | a :: x, b :: y => equal a b && equalItems x y
  | _, _ => false

def equalMembers : List (Entry Node) → List (Entry Node) → Bool
  | [], [] => true
  | ⟨k, _, a⟩ :: x, ⟨l, _, b⟩ :: y => k == l && equal a b && equalMembers x y
  | _, _ => false

end

/-! ## Copies -/

mutual

/-- A copy of a value down to its leaves. -/
def copy : Node → Node
  | array l items => array l (copyItems items)
  | object l ⟨entries⟩ => object l (copyMembers entries .empty)
  | n => n

def copyItems : List Node → List Node
  | [] => []
  | n :: rest => copy n :: copyItems rest

/-- Copies of some members, inserted after those copied before. -/
def copyMembers : List (Entry Node) → KeyedList Node → KeyedList Node
  | [], copied => copied
  | ⟨k, l, v⟩ :: rest, copied => copyMembers rest (copied.insertNew k l (copy v))

end

end Node

end ShapeTraits
