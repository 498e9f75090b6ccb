-- What a bare name means where a value is expected. The reader of values never
-- decides that itself.
import ShapeTraits.Node
import ShapeTraits.Reading

namespace ShapeTraits

/-- A way to give a meaning to names. -/
inductive Resolver where
  /-- The keywords are values, and every other name is kept for later. -/
  | forward
  /-- Every name is answered where it stands, and every name is kept. -/
  | answering (answer : Bytes → Location → Node)

namespace Resolver

/-- Every name stands for one value. -/
def fixed (answer : Node) : Resolver := answering fun _ location => answer.relocate location

/-- The value of a keyword. -/
def keyword? (name : Bytes) (location : Location) : Option Node :=
  if name = utf8 "true" then some (.boolean location true)
  else if name = utf8 "false" then some (.boolean location false)
  else if name = utf8 "null" then some (.null location)
  else none

/-- The cursor with one more name for later. -/
def keep (c : Cursor) (name : Bytes) (location : Location) : Cursor :=
  { c with references := c.references ++ [⟨name, location⟩] }

/-- The value of a name at a location. A name for later stands as a string. -/
def resolve (r : Resolver) (name : Bytes) (location : Location) : Reading Node := fun c =>
  match r with
  | forward =>
    match keyword? name location with
    | some value => (.ok value, c)
    | none => (.ok (.string location name), keep (c.note (.deferred name location)) name location)
  | answering answer => (.ok (answer name location), keep c name location)

end Resolver

end ShapeTraits
