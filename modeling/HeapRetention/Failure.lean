import HeapRetention.Json.ReadError

/-!
What can go wrong. An `AnalysisError` is expected and has a text for the user; a `Crash` is a broken
assumption that stops a computation on the spot. `Failure` is either.
-/

namespace HeapRetention

inductive IoKind where
  | notFound
  | other
  deriving Repr, DecidableEq

/-- A failed access to a file or to memory: its text and the texts of the causes beneath it. -/
structure IoError where
  kind : IoKind := .other
  text : String
  causes : List String := []
  deriving Repr, DecidableEq

/-- A file or directory that does not exist. -/
def IoError.notFound : IoError where
  kind := .notFound
  text := "No such file or directory (os error 2)"

/-- A path that goes on behind a file. -/
def IoError.notDirectory : IoError where
  text := "Not a directory (os error 20)"

/-- A directory in the place of a file. -/
def IoError.isDirectory : IoError where
  text := "Is a directory (os error 21)"

/-- A new directory where something is already. -/
def IoError.alreadyExists : IoError where
  text := "File exists (os error 17)"

def IoError.nameTooLong : IoError where
  text := "File name too long (os error 36)"

def IoError.nulInName : IoError where
  text := "file name contained an unexpected NUL byte"

/-- Malformed references never show up here: they count as null. -/
inductive AnalysisError where
  | canceled
  | capacityExceeded (list : String) (capacity : Nat)
  | invalidGraph (reason : String)
  | io (cause : IoError)
  | json (cause : Json.ReadError)
  | unknownClass (name : String)
  deriving Repr, DecidableEq

def AnalysisError.message : AnalysisError → String
  | .canceled => "analysis was canceled"
  | .capacityExceeded list capacity =>
    "list `" ++ list ++ "` exceeded its capacity of " ++ toString capacity ++ " entries"
  | .invalidGraph reason => "invalid heap graph: " ++ reason
  | .io cause => "i/o error: " ++ cause.text
  | .json cause => "json error: " ++ cause.message
  | .unknownClass name => "unknown class `" ++ name ++ "`"

/-- The texts of the underlying causes, the nearest first. -/
def AnalysisError.causes : AnalysisError → List String
  | .io cause => cause.text :: cause.causes
  | .json cause => [cause.message]
  | _ => []

/-- The message and every cause, one a line. -/
def AnalysisError.describe (e : AnalysisError) : String :=
  e.causes.foldl (fun text cause => text ++ "\n  caused by: " ++ cause) e.message

/-- An i/o error that wraps an analysis error: the causes beneath it are those of the wrapped error. -/
def IoError.wrapping (e : AnalysisError) : IoError where
  text := e.message
  causes := e.causes

inductive Crash where
  | indexOutOfBounds (index length : Nat)
  | wrongWidth (width length : Nat)
  | overflow
  /-- More bytes than memory can address. -/
  | capacityOverflow
  /-- A bounded loop ran out of turns. -/
  | stalled
  /-- A postponed edge was never released. -/
  | leftovers
  /-- The reader of the heap dump broke, with or without a message. -/
  | dump (message? : Option String)
  deriving Repr, DecidableEq

/-- The message a crash leaves behind, if it has one. -/
def Crash.message? : Crash → Option String
  | .indexOutOfBounds index length =>
    some ("index out of bounds: the len is " ++ toString length ++ " but the index is " ++ toString index)
  | .wrongWidth width length =>
    some ("expected " ++ toString width ++ " bytes, found " ++ toString length)
  | .overflow => some "attempt to add with overflow"
  | .capacityOverflow => some "capacity overflow"
  | .stalled => some "loop did not end"
  | .leftovers => some "postponed edges left unvisited"
  | .dump message? => message?

/-- What the report says about a crash. -/
def Crash.describe (c : Crash) : String :=
  match c.message? with
  | some m => "panic: " ++ m
  | none => "panic with a non-string payload"

inductive Failure where
  | error (e : AnalysisError)
  | crash (c : Crash)
  deriving Repr, DecidableEq

end HeapRetention
