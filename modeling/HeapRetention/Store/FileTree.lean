import HeapRetention.Failure

/-!
Directories and files in a tree, and the paths to them. A path is walked name by name; every name but the
last leads into a directory, and the last one may be new where a file is made.
-/

namespace HeapRetention

/-- The names that lead to a file or a directory, the innermost one first; the root has none. -/
abbrev Place := List String

/-- The path of a place. -/
def Place.text (place : Place) : String :=
  "/" ++ "/".intercalate place.reverse

/-- A path, as the names between its slashes. -/
structure Path where
  names : List String
  fromRoot : Bool
  endsInSlash : Bool
  deriving Repr, DecidableEq

namespace Path

/-- Cuts a text at every slash; `name` holds the name that is being read, the last character first. -/
def splitNames (name : List Char) : List Char → List String
  | [] => [String.ofList name.reverse]
  | c :: cs =>
    if c = '/' then String.ofList name.reverse :: splitNames [] cs else splitNames (c :: name) cs

/-- The longest path in bytes. -/
def lengthLimit : Nat := 4095

/-- The longest name in bytes. -/
def nameLimit : Nat := 255

/-- A path in a text. Slashes in a row count as one. -/
def ofText (text : String) : Except IoError Path :=
  if text.toList.contains '\x00' then .error .nulInName
  else if text.isEmpty then .error .notFound
  else if lengthLimit < text.utf8ByteSize then .error .nameTooLong
  else .ok {
    names := (splitNames [] text.toList).filter (!·.isEmpty)
    fromRoot := text.toList.head? == some '/'
    endsInSlash := text.toList.getLast? == some '/' }

/-- A path behind the path of a directory. One that starts at the root stands for itself. -/
def join (directory text : String) : String :=
  if text.toList.head? == some '/' then text
  else if directory.toList.getLast? == some '/' then directory ++ text
  else directory ++ "/" ++ text

end Path

/-- Directories, the root apart, and files with their contents. -/
structure FileTree (α : Type) where
  directories : List Place := []
  files : List (Place × α) := []
  deriving Repr

namespace FileTree

variable {α : Type}

def isDirectory (t : FileTree α) (place : Place) : Bool :=
  place.isEmpty || t.directories.contains place

/-- The content of the file at a place. -/
def file? (t : FileTree α) (place : Place) : Option α :=
  t.files.lookup place

/-- Makes a file, or gives the file at the place another content. -/
def put (t : FileTree α) (place : Place) (content : α) : FileTree α :=
  { t with files := (place, content) :: t.files.filter (·.1 != place) }

/-- The directory that a name leads to from a directory. -/
def enter (t : FileTree α) (directory : Place) (name : String) : Except IoError Place :=
  if name = "." then .ok directory
  else if name = ".." then .ok directory.tail
  else if Path.nameLimit < name.utf8ByteSize then .error .nameTooLong
  else if t.isDirectory (name :: directory) then .ok (name :: directory)
  else if (t.file? (name :: directory)).isSome then .error .notDirectory
  else .error .notFound

/-- Where a path starts. -/
def start (here : Place) (p : Path) : Place :=
  if p.fromRoot then [] else here

/-- The directory that holds the last name of a path, and that name unless the path itself is sure to be a
directory. -/
def lastName (t : FileTree α) (here : Place) (p : Path) : Except IoError (Place × Option String) := do
  let directory ← p.names.dropLast.foldlM t.enter (start here p)
  return (directory, p.names.getLast?.filter fun name => name != "." && name != "..")

/-- The content of the file of a path, or nothing if the path leads to a directory. -/
def read (t : FileTree α) (here : Place) (text : String) : Except IoError (Option α) := do
  let p ← Path.ofText text
  match ← t.lastName here p with
  | (_, none) => return none
  | (directory, some name) =>
    if Path.nameLimit < name.utf8ByteSize then .error .nameTooLong
    else if t.isDirectory (name :: directory) then return none
    else
      match t.file? (name :: directory) with
      | none => .error .notFound
      | some content => if p.endsInSlash then .error .notDirectory else return some content

/-- Makes or replaces the file of a path, whose directory has to be there. -/
def write (t : FileTree α) (here : Place) (text : String) (content : α) : Except IoError (FileTree α) := do
  let p ← Path.ofText text
  match ← t.lastName here p with
  | (_, none) => .error .isDirectory
  | (directory, some name) =>
    if p.endsInSlash then .error .isDirectory
    else if Path.nameLimit < name.utf8ByteSize then .error .nameTooLong
    else if t.isDirectory (name :: directory) then .error .isDirectory
    else return t.put (name :: directory) content

/-- Makes the directory of a path, and tells its place. What is there already is in the way. -/
def makeDirectory (t : FileTree α) (here : Place) (text : String) : Except IoError (Place × FileTree α) := do
  let p ← Path.ofText text
  match ← t.lastName here p with
  | (_, none) => .error .alreadyExists
  | (directory, some name) =>
    if Path.nameLimit < name.utf8ByteSize then .error .nameTooLong
    else if t.isDirectory (name :: directory) || (t.file? (name :: directory)).isSome then .error .alreadyExists
    else return (name :: directory, { t with directories := (name :: directory) :: t.directories })

/-- The files of a directory by name. -/
def listing (t : FileTree α) (directory : Place) : List (String × α) :=
  let inside := t.files.filterMap fun (place, content) =>
    match place with
    | name :: outer => if outer = directory then some (name, content) else none
    | [] => none
  inside.mergeSort fun a b => !(b.1 < a.1)

theorem file?_put_self (t : FileTree α) (place : Place) (content : α) :
    (t.put place content).file? place = some content := by
  unfold put file?
  rw [List.lookup_cons, beq_self_eq_true]

theorem isDirectory_put (t : FileTree α) (place other : Place) (content : α) :
    (t.put place content).isDirectory other = t.isDirectory other :=
  rfl

end FileTree

end HeapRetention
