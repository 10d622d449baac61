import HeapRetention.Json.Numeral

/-!
Skipping a value whose content does not matter. The open brackets are kept on a stack, so the depth of
the value is not limited.
-/

namespace HeapRetention.Json

inductive Bracket where
  | array
  | object
  deriving DecidableEq, Repr

/-- What may come next: a value, a key in quotes, the first member of a bracket just opened, or what
follows a finished value. -/
inductive Expecting where
  | value
  | key
  | first
  | after
  deriving DecidableEq, Repr

/-- Consumes a value that has no members; `none` for an opening bracket. -/
def skipScalar? (c : Char) (rest : List Char) : Except ReadError (Option (List Char)) :=
  if c = 'n' then some <$> expectWord ['u', 'l', 'l'] rest
  else if c = 't' then some <$> expectWord ['r', 'u', 'e'] rest
  else if c = 'f' then some <$> expectWord ['a', 'l', 's', 'e'] rest
  else if c = '-' ∨ isDigit c then some <$> skipNumeral (c :: rest)
  else if c = '"' then some <$> skipString .plain rest
  else if c = '[' ∨ c = '\x7b' then .ok none
  else .error .malformed

/-- Consumes a key, its opening quote already consumed, and the colon. -/
def skipKey (cs : List Char) : Except ReadError (List Char) := do
  let cs ← skipString .plain cs
  let (c, cs) ← nextChar cs
  if c = ':' then .ok cs else .error .malformed

/-- The innermost bracket is closed by its own kind of bracket only. -/
def Bracket.closedBy (b : Bracket) (c : Char) : Bool :=
  match b with
  | .array => c == ']'
  | .object => c == '\x7d'

/-- What a member of a bracket starts with. -/
def Bracket.member : Bracket → Expecting
  | .array => .value
  | .object => .key

/-- What the skipping expects next, the open brackets, and the text that is left. -/
abbrev SkipState :=
  Expecting × List Bracket × List Char

/-- Consumes a value without members, or an opening bracket. -/
def skipStart (stack : List Bracket) (c : Char) (rest : List Char) : Except ReadError SkipState := do
  match ← skipScalar? c rest with
  | some rest => return (.after, stack, rest)
  | none => return (.first, (if c = '[' then .array else .object) :: stack, rest)

/-- Consumes a key that starts with the character `c`. -/
def skipNamed (stack : List Bracket) (c : Char) (rest : List Char) : Except ReadError SkipState := do
  if c = '"' then return (.value, stack, ← skipKey rest) else .error .malformed

/-- Consumes the first member of a bracket up to its members, or the closing bracket. -/
def skipFirst (b : Bracket) (stack : List Bracket) (c : Char) (rest : List Char) :
    Except ReadError SkipState :=
  if b.closedBy c then .ok (.after, stack, rest)
  else
    match b with
    | .array => skipStart (b :: stack) c rest
    | .object => skipNamed (b :: stack) c rest

/-- Consumes what stands behind a member: a comma or the closing bracket. -/
def skipBehind (b : Bracket) (stack : List Bracket) (c : Char) (rest : List Char) :
    Except ReadError SkipState :=
  if c = ',' then .ok (b.member, b :: stack, rest)
  else if b.closedBy c then .ok (.after, stack, rest)
  else .error .malformed

/-- Runs until the value is complete. Every turn consumes a character, so a text as long as the value
bounds their number. -/
def skipLoop : (bound : List Char) → SkipState → Except ReadError (List Char)
  | [], _ => .error .malformed
  | _ :: bound, (expecting, stack, cs) =>
    match expecting, stack with
    | .after, [] | .first, [] => .ok cs
    | .value, stack => do
      let (c, rest) ← nextChar cs
      skipLoop bound (← skipStart stack c rest)
    | .key, stack => do
      let (c, rest) ← nextChar cs
      skipLoop bound (← skipNamed stack c rest)
    | .first, b :: stack => do
      let (c, rest) ← nextChar cs
      skipLoop bound (← skipFirst b stack c rest)
    | .after, b :: stack => do
      let (c, rest) ← nextChar cs
      skipLoop bound (← skipBehind b stack c rest)

/-- Consumes one value of any shape. -/
def skipValue (cs : List Char) : Except ReadError (List Char) :=
  skipLoop (' ' :: cs) (.value, [], cs)

end HeapRetention.Json
