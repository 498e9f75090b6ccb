-- A list of values under distinct keys, in the order of insertion. A key that
-- is there already is never written over.
import ShapeTraits.Location

namespace ShapeTraits

/-- A key, where it was written, and its value. -/
structure Entry (α : Type) where
  key : Bytes
  keyLocation : Location
  value : α

/-- The entries, oldest first. -/
structure KeyedList (α : Type) where
  entries : List (Entry α)

namespace KeyedList

variable {α : Type}

/-- No entries. -/
def empty : KeyedList α := ⟨[]⟩

instance : EmptyCollection (KeyedList α) := ⟨empty⟩

/-! ## Looking up -/

/-- The entry under a key. -/
def find? (m : KeyedList α) (key : Bytes) : Option (Entry α) := m.entries.find? (·.key == key)

/-- The position of the entry under a key. -/
def index? (m : KeyedList α) (key : Bytes) : Option Nat := m.entries.findIdx? (·.key == key)

def contains (m : KeyedList α) (key : Bytes) : Bool := (m.find? key).isSome

def size (m : KeyedList α) : Nat := m.entries.length

def isEmpty (m : KeyedList α) : Bool := m.entries.isEmpty

/-- The keys, oldest first. -/
def keys (m : KeyedList α) : List Bytes := m.entries.map (·.key)

/-! ## Inserting -/

/-- With one more entry at the end, unless its key is there already. -/
def insert? (m : KeyedList α) (key : Bytes) (location : Location) (value : α) :
    Option (KeyedList α) :=
  if m.contains key then none else some ⟨m.entries ++ [⟨key, location, value⟩]⟩

/-- With one more entry at the end. A key that is there already keeps its
first value. -/
def insertNew (m : KeyedList α) (key : Bytes) (location : Location) (value : α) : KeyedList α :=
  (m.insert? key location value).getD m

/-- The same entries, inserted one by one into an empty list. -/
def copy (m : KeyedList α) : KeyedList α :=
  m.entries.foldl (fun copied e => copied.insertNew e.key e.keyLocation e.value) empty

end KeyedList

end ShapeTraits
