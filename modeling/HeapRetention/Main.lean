import HeapRetention.CommandLine

/-!
The program on real files. Its lists always live in memory; a scratch directory has to be there, but
nothing is kept in it.
-/

namespace HeapRetention

/-- What went wrong with a file. -/
def ioError (e : IO.Error) : IoError :=
  match e with
  | .noFileOrDirectory .. => .notFound
  | e => { text := toString e }

/-- The text of a file. A file that is no text is no JSON either. -/
def readText (path : String) : IO (Except AnalysisError String) := do
  try
    let bytes ← IO.FS.readBinFile path
    match String.fromUTF8? bytes with
    | some text => return .ok text
    | none => return .error (.json .malformed)
  catch e => return .error (.io (ioError e))

def writeText (path text : String) : IO (Except IoError Unit) := do
  try
    IO.FS.writeFile path text
    return .ok ()
  catch e => return .error (ioError e)

/-- The number in a line of the memory statistics, in kilobytes. -/
def kilobytes (line : String) : Nat :=
  (decimalWord? (String.ofList (line.toList.filter Char.isDigit))).getD 0

/-- The bytes of memory that programs may still take. -/
def availableMemory : IO (Except AnalysisError Nat) := do
  try
    let text ← IO.FS.readFile "/proc/meminfo"
    match (text.splitOn "\n").find? fun line => (line.splitOn ":").head? = some "MemAvailable" with
    | some line => return .ok (kilobytes line * 1024)
    | none => return .error (.io { text := "free memory is unknown" })
  catch e => return .error (.io (ioError e))

/-- Scratch space; a directory has to admit a new one in it. -/
def scratchSpace (directory? : Option String) : IO (Except IoError ScratchSpace) := do
  try
    match directory? with
    | some directory =>
      let name := directory ++ "/" ++ ScratchDirectory.nameStem ++ toString (← IO.monoNanosNow)
      IO.FS.createDir name
      IO.FS.removeDir name
    | none => pure ()
    return .ok { available := ← availableMemory, inFiles := directory?.isSome }
  catch e => return .error (ioError e)

/-- Debug records are not shown. -/
def writeRecord (r : LogRecord) : IO Unit :=
  if r.level = .debug then pure () else IO.eprintln r.text

/-- The host of a program that runs for itself. -/
def systemHost : Host IO where
  read := readText
  write := writeText
  scratch := scratchSpace
  print := IO.print
  log := writeRecord

end HeapRetention

def main (args : List String) : IO UInt32 := do
  return (← HeapRetention.Program.run HeapRetention.systemHost args).toUInt32
