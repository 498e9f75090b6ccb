-- Members under distinct keys, in the order of insertion, with an index of where each
-- key stands. Looking up goes through the index, and so does the check for a key that
-- is there already.
import Std.Data.ExtHashMap
import ShapeTraits.KeyedList

namespace ShapeTraits

/-- The members, oldest first, and the positions of their keys. -/
structure KeyedTable (α : Type) where
  members : Array (Entry α)
  index : Std.ExtHashMap Bytes Nat

namespace KeyedTable

variable {α : Type}

/-- No members. -/
def empty : KeyedTable α := ⟨#[], ∅⟩

/-! ## Looking up -/

/-- The position of a key by the index. -/
def position? (t : KeyedTable α) (key : Bytes) : Option Nat := t.index[key]?

/-- The member under a key. -/
def find? (t : KeyedTable α) (key : Bytes) : Option (Entry α) :=
  match t.position? key with
  | none => none
  | some position => t.members[position]?

def contains (t : KeyedTable α) (key : Bytes) : Bool := (t.find? key).isSome

def size (t : KeyedTable α) : Nat := t.members.size

def isEmpty (t : KeyedTable α) : Bool := t.members.isEmpty

/-- The keys, oldest first. -/
def keys (t : KeyedTable α) : List Bytes := t.members.toList.map (·.key)

/-- The members without the index. -/
def list (t : KeyedTable α) : KeyedList α := ⟨t.members.toList⟩

/-! ## Inserting -/

/-- Whether the key is new, and the table with one more member at the end if it is. One
access to the index finds the key or sets its position. -/
def tryInsert (t : KeyedTable α) (key : Bytes) (location : Location) (value : α) :
    Bool × KeyedTable α :=
  let (found, index) := t.index.containsThenInsertIfNew key t.members.size
  if found then (false, { t with index })
  else (true, ⟨t.members.push ⟨key, location, value⟩, index⟩)

/-- With one more member at the end, for a key that is known to be new. A key that is there
already keeps its first value. -/
def insertUnique (t : KeyedTable α) (key : Bytes) (location : Location) (value : α) :
    KeyedTable α :=
  if t.index.contains key then t
  else ⟨t.members.push ⟨key, location, value⟩, t.index.insertIfNew key t.members.size⟩

/-- The same members with copied values, inserted one by one into an empty table. -/
def copy (copyValue : α → α) (t : KeyedTable α) : KeyedTable α :=
  t.members.foldl
    (fun copied e => copied.insertUnique e.key e.keyLocation (copyValue e.value)) empty

end KeyedTable

end ShapeTraits
