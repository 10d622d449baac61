import HeapRetention.Json.Skip
import HeapRetention.Numbers

/-!
Typed readers of JSON texts. A reader consumes one value and returns what follows it, or the first error
in the order of the text. Records may be written as objects, whose unknown fields are skipped, or as
arrays of their fields in order, and fields with a default may be left out.
-/

namespace HeapRetention.Json

abbrev Reader (α : Type) :=
  List Char → Except ReadError (α × List Char)

/-- The error for a value of another type; it starts with the character `c`. -/
def unexpected (expected : String) (c : Char) (rest : List Char) : ReadError :=
  let wrong (found : Except ReadError Found) : ReadError :=
    match found with
    | .ok f => .wrongType f expected
    | .error e => e
  if c = 'n' then wrong ((fun _ => .null) <$> expectWord ['u', 'l', 'l'] rest)
  else if c = 't' then wrong ((fun _ => .boolean true) <$> expectWord ['r', 'u', 'e'] rest)
  else if c = 'f' then wrong ((fun _ => .boolean false) <$> expectWord ['a', 'l', 's', 'e'] rest)
  else if c = '-' ∨ isDigit c then wrong ((fun p => p.1.found) <$> readNumeric (c :: rest))
  else if c = '"' then wrong ((fun p => .string p.1) <$> readStringBody rest)
  else if c = '[' then wrong (.ok .sequence)
  else if c = '\x7b' then wrong (.ok .map)
  else .malformed

/-- A boolean. -/
def readBoolean : Reader Bool := fun cs => do
  let (c, rest) ← nextChar cs
  if c = 't' then return (true, ← expectWord ['r', 'u', 'e'] rest)
  else if c = 'f' then return (false, ← expectWord ['a', 'l', 's', 'e'] rest)
  else .error (unexpected "a boolean" c rest)

/-- A string. -/
def readString : Reader String := fun cs => do
  let (c, rest) ← nextChar cs
  if c = '"' then readStringBody rest else .error (unexpected "a string" c rest)

/-- A natural number of at most `bits` bits. -/
def readWord (bits : Nat) (title : String) : Reader Nat := fun cs => do
  let (c, rest) ← nextChar cs
  if c = '-' ∨ isDigit c then
    let (n, rest) ← readNumeric (c :: rest)
    match n with
    | .natural n => if n < powerOfTwo bits then return (n, rest) else .error (.outOfRange n title)
    | .negative m => .error (.outOfRange (-m) title)
    | .decimal text => .error (.wrongType (.decimal text) title)
  else .error (unexpected title c rest)

/-- A word of 32 bits. -/
def readWord32 : Reader Nat :=
  readWord 32 "u32"

/-- A word of 64 bits. -/
def readWord64 : Reader Nat :=
  readWord 64 "u64"

/-- A size, a word of 64 bits by another title. -/
def readSize : Reader Nat :=
  readWord 64 "usize"

/-- `null` is no value. -/
def readOption (item : Reader α) : Reader (Option α) := fun cs => do
  let (c, rest) ← nextChar cs
  if c = 'n' then return (none, ← expectWord ['u', 'l', 'l'] rest)
  else
    let (x, rest) ← item (c :: rest)
    return (some x, rest)

/-- In a sequence: the start of the next item, or `none` in front of the closing bracket. -/
def nextItem (isFirst : Bool) (cs : List Char) : Except ReadError (Option (List Char)) := do
  let (c, rest) ← nextChar cs
  if c = ']' then return none
  else if isFirst then return some (c :: rest)
  else if c = ',' then
    let (c, rest) ← nextChar rest
    if c = ']' then .error .malformed else return some (c :: rest)
  else .error .malformed

/-- The closing bracket of a sequence whose length is fixed. -/
def endSequence (cs : List Char) : Except ReadError (List Char) := do
  let (c, rest) ← nextChar cs
  if c = ']' then return rest else .error .malformed

/-- The items of a sequence up to its closing bracket; `done` holds those read, the last one first. Every
item takes a character, so the text bounds their number. -/
def readItems (item : Reader α) : (bound : List Char) → List α → Bool → Reader (List α)
  | [], _, _, _ => .error .malformed
  | _ :: bound, done, isFirst, cs => do
    match ← nextItem isFirst cs with
    | none => return (done.reverse, ← endSequence cs)
    | some cs =>
      let (x, cs) ← item cs
      readItems item bound (x :: done) false cs

/-- A sequence of any length. -/
def readList (item : Reader α) : Reader (List α) := fun cs => do
  let (c, rest) ← nextChar cs
  if c = '[' then readItems item (c :: rest) [] true rest else .error (unexpected "a sequence" c rest)

/-- A pair, written as a sequence of two. -/
def readPair (first : Reader α) (second : Reader β) : Reader (α × β) := fun cs => do
  let expected := "a tuple of size 2"
  let (c, rest) ← nextChar cs
  if c = '[' then
    match ← nextItem true rest with
    | none => .error (.wrongLength 0 expected)
    | some cs =>
      let (a, cs) ← first cs
      match ← nextItem false cs with
      | none => .error (.wrongLength 1 expected)
      | some cs =>
        let (b, cs) ← second cs
        return ((a, b), ← endSequence cs)
  else .error (unexpected expected c rest)

/-- In an object: the text after the opening quote of the next key, or `none` in front of the closing
brace. -/
def nextKey (isFirst : Bool) (cs : List Char) : Except ReadError (Option (List Char)) := do
  let (c, rest) ← nextChar cs
  if c = '\x7d' then return none
  else if isFirst then
    if c = '"' then return some rest else .error .malformed
  else if c = ',' then
    let (c, rest) ← nextChar rest
    if c = '"' then return some rest else .error .malformed
  else .error .malformed

/-- The colon after a key. -/
def expectColon (cs : List Char) : Except ReadError (List Char) := do
  let (c, rest) ← nextChar cs
  if c = ':' then return rest else .error .malformed

/-- The value named by a text, out of a fixed choice. -/
def readChoiceName (names : List (String × α)) (name : String) : Except ReadError α :=
  match names.lookup name with
  | some x => .ok x
  | none => .error (.unknownVariant name (names.map Prod.fst))

/-- The null behind the only key of an object, and the closing brace. -/
def endUnit (cs : List Char) : Except ReadError (List Char) := do
  let (c, rest) ← nextChar cs
  if c = 'n' then
    let (c, rest) ← nextChar (← expectWord ['u', 'l', 'l'] rest)
    if c = '\x7d' then return rest else .error .malformed
  else .error (unexpected "unit" c rest)

/-- One of a fixed choice of names, written as a string or as the only key of an object whose value is
null. -/
def readChoice (names : List (String × α)) : Reader α := fun cs => do
  let (c, rest) ← nextChar cs
  if c = '"' then
    let (name, rest) ← readStringBody rest
    return (← readChoiceName names name, rest)
  else if c = '\x7b' then
    match ← nextKey true rest with
    | none => .error .malformed
    | some rest =>
      let (name, rest) ← readStringBody rest
      let x ← readChoiceName names name
      return (x, ← endUnit (← expectColon rest))
  else .error .malformed

/-- A field of the record `α`: how its value is read and put into a record that holds the defaults and the
fields read so far. -/
structure RecordField (α : Type) where
  name : String
  required : Bool
  update : α → Reader α

/-- A field read by `item` and stored by `store`. -/
def RecordField.make (name : String) (required : Bool) (item : Reader β) (store : α → β → α) : RecordField α where
  name := name
  required := required
  update r := fun cs => do
    let (x, rest) ← item cs
    return (store r x, rest)

/-- The fields of an object up to its closing brace; `seen` holds the known names met so far. The text
bounds the number of fields. -/
def readFields (fields : List (RecordField α)) :
    (bound : List Char) → List String → α → Bool → Reader (List String × α)
  | [], _, _, _, _ => .error .malformed
  | _ :: bound, seen, record, isFirst, cs => do
    match ← nextKey isFirst cs with
    | none =>
      let (_, rest) ← nextChar cs
      return ((seen, record), rest)
    | some cs =>
      let (key, cs) ← readStringBody cs
      match fields.find? (fun f => f.name == key) with
      | none =>
        let cs ← skipValue (← expectColon cs)
        readFields fields bound seen record false cs
      | some f =>
        if seen.contains f.name then .error (.duplicateField f.name)
        else
          let (record, cs) ← f.update record (← expectColon cs)
          readFields fields bound (f.name :: seen) record false cs

/-- The fields of a record written as an array; a field may be left out at the end if it has a default. -/
def readPositions (expected : String) : Nat → List (RecordField α) → α → Reader α
  | _, [], record, cs => do return (record, ← endSequence cs)
  | position, f :: fields, record, cs => do
    match ← nextItem (position == 0) cs with
    | none =>
      if f.required then .error (.wrongLength position expected)
      else readPositions expected (position + 1) fields record cs
    | some cs =>
      let (record, cs) ← f.update record cs
      readPositions expected (position + 1) fields record cs

/-- A record, as an object or as an array, over the defaults `blank`. -/
def readRecord (title : String) (fields : List (RecordField α)) (blank : α) : Reader α := fun cs => do
  let (c, rest) ← nextChar cs
  if c = '\x7b' then
    let ((seen, record), rest) ← readFields fields (c :: rest) [] blank true rest
    match fields.find? (fun f => f.required && !seen.contains f.name) with
    | some f => .error (.missingField f.name)
    | none => return (record, rest)
  else if c = '[' then
    let count := toString fields.length ++ (if fields.length = 1 then " element" else " elements")
    readPositions ("struct " ++ title ++ " with " ++ count) 0 fields blank rest
  else .error (unexpected ("struct " ++ title) c rest)

/-- The value of a whole text; only blanks may follow it. -/
def readDocument (item : Reader α) (text : String) : Except ReadError α := do
  let (x, rest) ← item text.toList
  if (skipBlanks rest).isEmpty then return x else .error .malformed

end HeapRetention.Json
