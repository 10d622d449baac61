import HeapRetention.CommandLine
import HeapRetention.Store.FileTree

/-!
The program on a tree of files of its own. What it wrote, printed and logged is there to be looked at when
it has come to its end.
-/

namespace HeapRetention

structure TreeHost where
  tree : FileTree String
  /-- The directory in which the program runs. -/
  place : Place
  /-- The bytes left for the lists of an analysis. -/
  available : Nat
  /-- How the name of a new scratch directory ends. -/
  token : String := "000000"
  output : String := ""
  records : List LogRecord := []

namespace TreeHost

/-- Reads a file. A directory can be opened, but has no text. -/
def read (s : TreeHost) (path : String) : Except AnalysisError String :=
  match s.tree.read s.place path with
  | .error e => .error (.io e)
  | .ok none => .error (.json (.unreadable IoError.isDirectory.text))
  | .ok (some text) => .ok text

def write (s : TreeHost) (path text : String) : Except IoError TreeHost := do
  return { s with tree := ← s.tree.write s.place path text }

/-- Scratch space in memory, or under a directory that is there. -/
def scratch (s : TreeHost) : Option String → Except IoError ScratchSpace
  | none => .ok { available := .ok s.available }
  | some directory => do
    let path := ScratchDirectory.pathIn s.place directory s.token
    let _ ← s.tree.makeDirectory s.place path
    return { available := .ok s.available, inFiles := true, refuses := ScratchDirectory.refuses path }

/-- The messages of the errors that were logged. -/
def errors (s : TreeHost) : List String :=
  (s.records.filter (·.level = .error)).map (·.message)

/-- The tree as the surroundings of a program. -/
def host : Host (StateM TreeHost) where
  read path := fun s => (s.read path, s)
  write path text := fun s =>
    match s.write path text with
    | .ok s => (.ok (), s)
    | .error e => (.error e, s)
  scratch directory? := fun s => (s.scratch directory?, s)
  print text := fun s => ((), { s with output := s.output ++ text })
  log r := fun s => ((), { s with records := s.records ++ [r] })

/-- Runs the program and returns its exit code. -/
def run (s : TreeHost) (args : List String) : Nat × TreeHost :=
  Program.run host args s

end TreeHost

end HeapRetention
