import HeapRetention.Text.Quoted

/-!
Why a JSON text was not accepted. A text may be no JSON at all, may end too early, or may hold a value of
another shape than was asked for; only the last kind has a message.
-/

namespace HeapRetention.Json

/-- What stands in the text where a value of another type was expected. A number that is no integer is
kept as its shortest text. -/
inductive Found where
  | null
  | boolean (b : Bool)
  | integer (n : Int)
  | decimal (text : String)
  | string (s : String)
  | sequence
  | map
  deriving Repr, DecidableEq

inductive ReadError where
  /-- The text ends inside a value. -/
  | truncated
  /-- The text breaks the grammar. -/
  | malformed
  /-- The text could not be read to its end. -/
  | unreadable (reason : String)
  | wrongType (found : Found) (expected : String)
  | outOfRange (value : Int) (expected : String)
  | wrongLength (length : Nat) (expected : String)
  | missingField (name : String)
  | duplicateField (name : String)
  | unknownVariant (name : String) (allowed : List String)
  deriving Repr, DecidableEq

def Found.text : Found → String
  | .null => "null"
  | .boolean b => "boolean `" ++ (if b then "true" else "false") ++ "`"
  | .integer n => "integer `" ++ toString n ++ "`"
  | .decimal text => "floating point `" ++ text ++ "`"
  | .string s => "string " ++ Text.quoted s
  | .sequence => "sequence"
  | .map => "map"

/-- Names in backticks, joined by "or". -/
def alternatives (names : List String) : String :=
  match names with
  | [] => "there are no variants"
  | [a] => "`" ++ a ++ "`"
  | [a, b] => "`" ++ a ++ "` or `" ++ b ++ "`"
  | names => "one of " ++ ", ".intercalate (names.map fun n => "`" ++ n ++ "`")

/-- What is wrong with the value that was read. -/
def ReadError.message : ReadError → String
  | .truncated => "EOF while parsing a value"
  | .malformed => "expected value"
  | .unreadable reason => reason
  | .wrongType found expected => "invalid type: " ++ found.text ++ ", expected " ++ expected
  | .outOfRange value expected => "invalid value: integer `" ++ toString value ++ "`, expected " ++ expected
  | .wrongLength length expected => "invalid length " ++ toString length ++ ", expected " ++ expected
  | .missingField name => "missing field `" ++ name ++ "`"
  | .duplicateField name => "duplicate field `" ++ name ++ "`"
  | .unknownVariant name allowed =>
    "unknown variant `" ++ name ++ "`, expected " ++ alternatives allowed

end HeapRetention.Json
