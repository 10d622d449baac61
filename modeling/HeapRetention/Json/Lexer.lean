import HeapRetention.Json.ReadError

/-!
The lexical level of JSON texts: blanks, fixed words, strings and their escapes. Every function takes the
rest of the text and returns what follows the piece it consumed.
-/

namespace HeapRetention.Json

def isBlank (c : Char) : Bool :=
  c == ' ' || c == '\n' || c == '\t' || c == '\r'

def skipBlanks (cs : List Char) : List Char :=
  cs.dropWhile isBlank

/-- The text from its next character that is not blank; there has to be one. -/
def nextChar (cs : List Char) : Except ReadError (Char × List Char) :=
  match skipBlanks cs with
  | [] => .error .truncated
  | c :: rest => .ok (c, rest)

/-- Consumes exactly the characters of a word. -/
def expectWord : List Char → List Char → Except ReadError (List Char)
  | [], cs => .ok cs
  | _ :: _, [] => .error .truncated
  | w :: ws, c :: cs => if w = c then expectWord ws cs else .error .malformed

/-- The value of a hexadecimal digit. -/
def hexValue? (c : Char) : Option Nat :=
  if '0' ≤ c ∧ c ≤ '9' then some (c.toNat - 48)
  else if 'a' ≤ c ∧ c ≤ 'f' then some (c.toNat - 87)
  else if 'A' ≤ c ∧ c ≤ 'F' then some (c.toNat - 55)
  else none

/-- The character an escape letter stands for. -/
def escaped? (c : Char) : Option Char :=
  if c = '"' then some '"'
  else if c = '\\' then some '\\'
  else if c = '/' then some '/'
  else if c = 'b' then some '\x08'
  else if c = 'f' then some '\x0c'
  else if c = 'n' then some '\n'
  else if c = 'r' then some '\r'
  else if c = 't' then some '\t'
  else none

/-- Where the scan of a string stands. A hexadecimal escape takes four bytes; its value is lost once one
of them is no digit. A leading surrogate waits for the escape of its partner. -/
inductive StringScan where
  | plain
  | escape
  | hex (high? : Option Nat) (taken : Nat) (value? : Option Nat)
  | partnerEscape (high : Nat)
  | partnerLetter (high : Nat)

/-- The value of a hexadecimal escape with one more character. -/
def pushHex (value? : Option Nat) (c : Char) : Option Nat :=
  match value?, hexValue? c with
  | some v, some d => some (16 * v + d)
  | _, _ => none

def isHighSurrogate (n : Nat) : Bool :=
  0xD800 ≤ n && n ≤ 0xDBFF

def isLowSurrogate (n : Nat) : Bool :=
  0xDC00 ≤ n && n ≤ 0xDFFF

/-- What a complete hexadecimal escape means: a character, or a surrogate that needs a partner. -/
def closeHex (high? : Option Nat) (value : Nat) : Except ReadError (StringScan × Option Char) :=
  match high? with
  | none =>
    if isLowSurrogate value then .error .malformed
    else if isHighSurrogate value then .ok (.partnerEscape value, none)
    else .ok (.plain, some (Char.ofNat value))
  | some high =>
    if isLowSurrogate value then
      .ok (.plain, some (Char.ofNat ((high - 0xD800) * 1024 + (value - 0xDC00) + 0x10000)))
    else .error .malformed

/-- The rest of a string after its opening quote, with surrogates paired. `done` holds the characters so
far, the last one first. -/
def scanString : StringScan → List Char → List Char → Except ReadError (List Char × List Char)
  | _, _, [] => .error .truncated
  | .plain, done, c :: cs =>
    if c = '"' then .ok (done.reverse, cs)
    else if c = '\\' then scanString .escape done cs
    else if c.toNat < 32 then .error .malformed
    else scanString .plain (c :: done) cs
  | .escape, done, c :: cs =>
    if c = 'u' then scanString (.hex none 0 (some 0)) done cs
    else
      match escaped? c with
      | some e => scanString .plain (e :: done) cs
      | none => .error .malformed
  | .hex high? taken value?, done, c :: cs =>
    if taken + c.utf8Size < 4 then scanString (.hex high? (taken + c.utf8Size) (pushHex value? c)) done cs
    else
      match pushHex value? c with
      | none => .error .malformed
      | some value =>
        match closeHex high? value with
        | .error e => .error e
        | .ok (state, some ch) => scanString state (ch :: done) cs
        | .ok (state, none) => scanString state done cs
  | .partnerEscape high, done, c :: cs =>
    if c = '\\' then scanString (.partnerLetter high) done cs else .error .malformed
  | .partnerLetter high, done, c :: cs =>
    if c = 'u' then scanString (.hex (some high) 0 (some 0)) done cs else .error .malformed

/-- A string whose opening quote has been consumed. -/
def readStringBody (cs : List Char) : Except ReadError (String × List Char) :=
  match scanString .plain [] cs with
  | .ok (chars, rest) => .ok (String.ofList chars, rest)
  | .error e => .error e

/-- Where the scan of a skipped string stands; surrogates need no partner there. -/
inductive SkipScan where
  | plain
  | escape
  | hex (taken : Nat) (valid : Bool)

/-- Consumes the rest of a string whose content does not matter. -/
def skipString : SkipScan → List Char → Except ReadError (List Char)
  | _, [] => .error .truncated
  | .plain, c :: cs =>
    if c = '"' then .ok cs
    else if c = '\\' then skipString .escape cs
    else if c.toNat < 32 then .error .malformed
    else skipString .plain cs
  | .escape, c :: cs =>
    if c = 'u' then skipString (.hex 0 true) cs
    else if (escaped? c).isSome then skipString .plain cs
    else .error .malformed
  | .hex taken valid, c :: cs =>
    let valid := valid && (hexValue? c).isSome
    if taken + c.utf8Size < 4 then skipString (.hex (taken + c.utf8Size) valid) cs
    else if valid then skipString .plain cs
    else .error .malformed

end HeapRetention.Json
