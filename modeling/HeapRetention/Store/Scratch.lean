import HeapRetention.Store.FileTree
import HeapRetention.Store.Slots

/-!
Where the lists of an analysis live. A `ScratchSpace` says how many bytes are left and which lists it
refuses; a `ScratchDirectory` holds one file for each list.
-/

namespace HeapRetention

/-- A list somebody asks for. -/
structure ListRequest where
  name : String
  capacity : Nat
  width : WordWidth := .long
  deriving Repr, DecidableEq

/-- The bytes a list takes. -/
def ListRequest.bytes (r : ListRequest) : Nat :=
  r.capacity * r.width.bytes

structure ScratchSpace where
  available : Except AnalysisError Nat
  /-- Lists live in files of their own; otherwise in memory. -/
  inFiles : Bool := false
  refuses : String → Option AnalysisError := fun _ => none

namespace ScratchSpace

/-- Whether a list can be made. Memory that cannot be addressed is a crash. -/
def check (s : ScratchSpace) (r : ListRequest) : Except Failure Unit :=
  match s.refuses r.name with
  | some e => .error (.error e)
  | none =>
    if s.inFiles then (MappedSlots.checkSize r.width r.capacity).mapError fun e => .error (.io e)
    else (Slots.checkSize r.width r.capacity).mapError .crash

/-- Books the lists in order, up to the first one that cannot be made. -/
def reserve (s : ScratchSpace) : List ListRequest → Except Failure Unit
  | [] => .ok ()
  | r :: rs =>
    match s.check r with
    | .error f => .error f
    | .ok () => s.reserve rs

end ScratchSpace

/-- A directory of backing files. Every request takes a new number, also one that fails. -/
structure ScratchDirectory where
  tree : FileTree Nat := {}
  /-- The path under which the files are made. -/
  path : String
  place : Place
  nextNumber : Nat := 0
  deriving Repr

namespace ScratchDirectory

/-- How the names of all scratch directories start. -/
def nameStem : String := "heapscope-"

/-- The path of a new directory under another one, whose path starts at the directory `here`. -/
def pathIn (here : Place) (parent token : String) : String :=
  Path.join (Path.join here.text parent) (nameStem ++ token)

/-- A new directory under an existing one, whose path starts at the directory `here`. -/
def createIn (tree : FileTree Nat) (here : Place) (parent token : String) :
    Except IoError ScratchDirectory := do
  let path := pathIn here parent token
  let (place, tree) ← tree.makeDirectory here path
  return { tree, path, place }

/-- The name of the directory itself. -/
def name (d : ScratchDirectory) : String :=
  d.place.head?.getD ""

/-- The path of the file with a number, seen from the directory. -/
def fileName (list : String) (number : Nat) : String :=
  list ++ "-" ++ toString number ++ ".bin"

/-- Why a directory refuses a list: the path of the file behind that of the directory is too long. -/
def refuses (path list : String) : Option AnalysisError :=
  if Path.lengthLimit < (Path.join path (fileName list 0)).utf8ByteSize then some (.io .nameTooLong) else none

/-- The length of the backing file of a list, zero if the file cannot be made long enough. -/
def fileLength (r : ListRequest) : Nat :=
  match MappedSlots.checkLength r.width r.capacity with
  | .ok () => MappedSlots.fileLength r.width r.capacity
  | .error _ => 0

/-- Makes the backing file of a list. A file that cannot be made long enough stays behind empty. -/
def createFile (d : ScratchDirectory) (r : ListRequest) : ScratchDirectory × Except IoError Unit :=
  let path := Path.join d.path (fileName r.name d.nextNumber)
  let d := { d with nextNumber := d.nextNumber + 1 }
  match MappedSlots.checkAddress r.width r.capacity with
  | .error e => (d, .error e)
  | .ok () =>
    match d.tree.write d.place path (fileLength r) with
    | .error e => (d, .error e)
    | .ok tree => ({ d with tree }, MappedSlots.checkLength r.width r.capacity)

/-- The files by name with their lengths. -/
def listing (d : ScratchDirectory) : List (String × Nat) :=
  d.tree.listing d.place

end ScratchDirectory

end HeapRetention
