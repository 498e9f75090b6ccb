-- The files a run can see. They are known by the names that lead to them from
-- the root, and a path is followed name by name.
import ShapeTraits.Bytes

namespace ShapeTraits

/-- The working directory, the other directories, and the files with their
contents. -/
structure Files where
  working : List Bytes
  directories : List (List Bytes)
  entries : List (List Bytes × Bytes)
  deriving DecidableEq, Repr

namespace Files

/-- No files, in a working directory. -/
def emptyAt (working : List Bytes) : Files := ⟨working, [], []⟩

/-! ## Paths -/

/-- The longest name that a file can have. -/
def nameLimit : Nat := 255

/-- The longest path that can be followed. -/
def pathLimit : Nat := 4095

/-- A path ends at its first zero byte. -/
def untilZero (path : Bytes) : Bytes := path.takeWhile (· != 0)

/-- The names between the slashes of a path. -/
def namesOf (path : Bytes) : List Bytes := Bytes.splitOn Byte.slash (untilZero path)

/-- Where a path starts: at the root behind a slash, else at the working
directory. -/
def startOf (f : Files) (path : Bytes) : List Bytes :=
  if path.head? = some Byte.slash then [] else f.working

/-- A name that leads to no other directory. -/
def staysAt (name : Bytes) : Bool := name == [] || name == utf8 "."

/-- One step from a directory along a path. The root is above itself. -/
def step (directory : List Bytes) (name : Bytes) : List Bytes :=
  if staysAt name then directory
  else if name = utf8 ".." then directory.dropLast
  else directory ++ [name]

/-- The working directory and all those above it are there, and so are the other
directories that are known. -/
def isDirectory (f : Files) (names : List Bytes) : Bool :=
  names.isPrefixOf f.working || f.directories.contains names

/-- One step to a directory that is there. -/
def enter (f : Files) (directory : List Bytes) (name : Bytes) : Option (List Bytes) :=
  some (step directory name) |>.filter f.isDirectory

/-- The names that lead to the file of a path, whether it is there or not. There
are none if the path is too long, a directory on the way is not there, or the
path can only be that of a directory. -/
def locate? (f : Files) (path : Bytes) : Option (List Bytes) := do
  guard ((untilZero path).length ≤ pathLimit)
  let names := namesOf path
  let directory ← names.dropLast.foldlM f.enter (f.startOf path)
  let name ← names.getLast?
  if staysAt name ∨ name = utf8 ".." ∨ nameLimit < name.length then none
  else some (directory ++ [name]) |>.filter fun found => !f.isDirectory found

/-! ## Contents -/

/-- The content of the file with the given names. -/
def content? (f : Files) (names : List Bytes) : Option Bytes := f.entries.lookup names

/-- The content of the file of a path. A directory has none, so where a document is
asked for it is refused; a system that opens directories like files, and then finds
nothing to read, sees an empty document in its place. -/
def read? (f : Files) (path : Bytes) : Option Bytes := (f.locate? path).bind f.content?

/-- The files with a new content for one, which is added if it was not there. -/
def put (f : Files) (names : List Bytes) (content : Bytes) : Files :=
  let entries :=
    if f.entries.any (·.1 == names) then
      f.entries.map fun entry => if entry.1 = names then (names, content) else entry
    else f.entries ++ [(names, content)]
  { f with entries }

/-- The files with all the directories to which some names lead, one after the
other, from a directory on; and the last of these. -/
def walk (f : Files) (directory : List Bytes) : List Bytes → Files × List Bytes
  | [] => (f, directory)
  | name :: rest =>
    let next := step directory name
    walk { f with directories := f.directories ++ [next] } next rest

/-- The files with the directory of a path, and those on its way. -/
def addDirectory (f : Files) (path : Bytes) : Files := (f.walk (f.startOf path) (namesOf path)).1

/-- The files with one more, or with another content for it, and with the
directories on its way. -/
def add (f : Files) (path content : Bytes) : Files :=
  let names := namesOf path
  let (f, directory) := f.walk (f.startOf path) names.dropLast
  f.put (directory ++ names.getLast?.toList) content

/-- The path below the working directory and the content of every file there, by
path in the order of bytes. -/
def listing (f : Files) : List (Bytes × Bytes) :=
  let below := f.entries.filter fun entry => f.working.isPrefixOf entry.1
  let named := below.map fun entry =>
    (Bytes.joinWith [Byte.slash] (entry.1.drop f.working.length), entry.2)
  named.mergeSort fun a b => Bytes.le a.1 b.1

end Files

end ShapeTraits
