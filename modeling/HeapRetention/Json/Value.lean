/-!
JSON values and their two written forms: `compact`, on one line without blanks, and `pretty`, with one
member a line and an indentation of two blanks a level. Both write in front of a text that follows, which
is also how the readers see them.
-/

namespace HeapRetention.Json

/-- The values the library writes; its numbers are all natural. -/
inductive Value where
  | null
  | boolean (b : Bool)
  | number (n : Nat)
  | string (s : String)
  | array (items : List Value)
  | object (fields : List (String × Value))
  deriving Repr, Inhabited

/-- A hexadecimal digit, in lower case. -/
def hexDigit (n : Nat) : Char :=
  if n < 10 then Char.ofNat (48 + n) else Char.ofNat (87 + n)

/-- Quotes, backslashes and control characters are escaped, everything else stands for itself. -/
def escapeChar (c : Char) : List Char :=
  if c = '"' then ['\\', '"']
  else if c = '\\' then ['\\', '\\']
  else if c = '\n' then ['\\', 'n']
  else if c = '\r' then ['\\', 'r']
  else if c = '\t' then ['\\', 't']
  else if c = '\x08' then ['\\', 'b']
  else if c = '\x0c' then ['\\', 'f']
  else if c.toNat < 32 then ['\\', 'u', '0', '0', hexDigit (c.toNat / 16), hexDigit (c.toNat % 16)]
  else [c]

/-- A string in quotes. -/
def writeString (s : String) (rest : List Char) : List Char :=
  '"' :: s.toList.foldr (fun c tail => escapeChar c ++ tail) ('"' :: rest)

/-- The decimal digits of a number. -/
def writeNumber (n : Nat) (rest : List Char) : List Char :=
  Nat.toDigits 10 n ++ rest

def writeBoolean (b : Bool) (rest : List Char) : List Char :=
  (if b then ['t', 'r', 'u', 'e'] else ['f', 'a', 'l', 's', 'e']) ++ rest

mutual

/-- The value without any blank. -/
def Value.compact : Value → List Char → List Char
  | .null, rest => 'n' :: 'u' :: 'l' :: 'l' :: rest
  | .boolean b, rest => writeBoolean b rest
  | .number n, rest => writeNumber n rest
  | .string s, rest => writeString s rest
  | .array [], rest => '[' :: ']' :: rest
  | .array (v :: vs), rest => '[' :: v.compact (compactItems vs rest)
  | .object [], rest => '\x7b' :: '\x7d' :: rest
  | .object ((k, v) :: fs), rest => '\x7b' :: writeString k (':' :: v.compact (compactFields fs rest))

/-- The items after the first, and the closing bracket. -/
def compactItems : List Value → List Char → List Char
  | [], rest => ']' :: rest
  | v :: vs, rest => ',' :: v.compact (compactItems vs rest)

/-- The fields after the first, and the closing brace. -/
def compactFields : List (String × Value) → List Char → List Char
  | [], rest => '\x7d' :: rest
  | (k, v) :: fs, rest => ',' :: writeString k (':' :: v.compact (compactFields fs rest))

end

/-- A new line at a level of indentation. -/
def newLine (level : Nat) (rest : List Char) : List Char :=
  '\n' :: (List.replicate (2 * level) ' ' ++ rest)

mutual

/-- The value with its members on lines of their own, one level deeper. -/
def Value.prettyAt (level : Nat) : Value → List Char → List Char
  | .null, rest => 'n' :: 'u' :: 'l' :: 'l' :: rest
  | .boolean b, rest => writeBoolean b rest
  | .number n, rest => writeNumber n rest
  | .string s, rest => writeString s rest
  | .array [], rest => '[' :: ']' :: rest
  | .array (v :: vs), rest =>
    '[' :: newLine (level + 1) (v.prettyAt (level + 1) (prettyItems level vs rest))
  | .object [], rest => '\x7b' :: '\x7d' :: rest
  | .object ((k, v) :: fs), rest =>
    '\x7b' :: newLine (level + 1)
      (writeString k (':' :: ' ' :: v.prettyAt (level + 1) (prettyFields level fs rest)))

/-- The items after the first, and the closing bracket on its own line. -/
def prettyItems (level : Nat) : List Value → List Char → List Char
  | [], rest => newLine level (']' :: rest)
  | v :: vs, rest => ',' :: newLine (level + 1) (v.prettyAt (level + 1) (prettyItems level vs rest))

/-- The fields after the first, and the closing brace on its own line. -/
def prettyFields (level : Nat) : List (String × Value) → List Char → List Char
  | [], rest => newLine level ('\x7d' :: rest)
  | (k, v) :: fs, rest =>
    ',' :: newLine (level + 1)
      (writeString k (':' :: ' ' :: v.prettyAt (level + 1) (prettyFields level fs rest)))

end

/-- The compact text of a value. -/
def Value.render (v : Value) : String :=
  String.ofList (v.compact [])

/-- The indented text of a value. -/
def Value.renderPretty (v : Value) : String :=
  String.ofList (v.prettyAt 0 [])

/-- An array with one value for each element. -/
def Value.ofList (f : α → Value) (xs : List α) : Value :=
  .array (xs.map f)

end HeapRetention.Json
