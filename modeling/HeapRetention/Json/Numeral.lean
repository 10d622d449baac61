import HeapRetention.Json.Lexer
import HeapRetention.Numbers
import HeapRetention.Text.Decimal

/-!
Numbers in JSON texts. A number without fraction and exponent that fits 64 bits is an integer; every
other number, minus zero included, is a decimal.
-/

namespace HeapRetention.Json

/-- The pieces of a number as written. -/
structure Numeral where
  negative : Bool
  whole : List Char
  fraction? : Option (List Char)
  exponent? : Option (Bool × List Char)

def isDigit (c : Char) : Bool :=
  '0' ≤ c && c ≤ '9'

def digitValue (c : Char) : Nat :=
  c.toNat - 48

/-- The exponent sign and its digits after the letter `e`; `true` is plus. -/
def readExponent (cs : List Char) : Except ReadError ((Bool × List Char) × List Char) :=
  let (positive, cs) :=
    match cs with
    | '+' :: r => (true, r)
    | '-' :: r => (false, r)
    | r => (true, r)
  match cs with
  | [] => .error .truncated
  | c :: _ =>
    if isDigit c then .ok ((positive, cs.takeWhile isDigit), cs.dropWhile isDigit) else .error .malformed

/-- The optional exponent of a number. -/
def readExponent? (cs : List Char) : Except ReadError (Option (Bool × List Char) × List Char) :=
  match cs with
  | c :: r =>
    if c = 'e' ∨ c = 'E' then
      match readExponent r with
      | .ok (e, r) => .ok (some e, r)
      | .error e => .error e
    else .ok (none, cs)
  | [] => .ok (none, [])

/-- The optional fraction of a number; a point needs a digit after it. -/
def readFraction? (cs : List Char) : Except ReadError (Option (List Char) × List Char) :=
  match cs with
  | '.' :: [] => .error .truncated
  | '.' :: c :: r =>
    if isDigit c then .ok (some ((c :: r).takeWhile isDigit), (c :: r).dropWhile isDigit)
    else .error .malformed
  | cs => .ok (none, cs)

/-- The digits in front of the point; no zero leads another digit. -/
def readWhole (cs : List Char) : Except ReadError (List Char × List Char) :=
  match cs with
  | [] => .error .truncated
  | '0' :: c :: r => if isDigit c then .error .malformed else .ok (['0'], c :: r)
  | '0' :: [] => .ok (['0'], [])
  | c :: r =>
    if isDigit c then .ok ((c :: r).takeWhile isDigit, (c :: r).dropWhile isDigit) else .error .malformed

/-- A number; its first character is a digit or the minus sign. -/
def readNumeral (cs : List Char) : Except ReadError (Numeral × List Char) := do
  let (negative, cs) :=
    match cs with
    | '-' :: r => (true, r)
    | r => (false, r)
  let (whole, cs) ← readWhole cs
  let (fraction?, cs) ← readFraction? cs
  let (exponent?, cs) ← readExponent? cs
  return (⟨negative, whole, fraction?, exponent?⟩, cs)

/-- Reads digits into a significand until it would outgrow 64 bits; the digits left over come second. -/
def significand : Nat → List Char → Nat × List Char
  | acc, [] => (acc, [])
  | acc, c :: cs =>
    let next := 10 * acc + digitValue c
    if longMax < next then (acc, c :: cs) else significand next cs

/-- Divides by the largest power of ten of the double range until the exponent is within it. -/
def scaleTiny : Nat → Float → Nat → Float
  | 0, f, _ => f
  | fuel + 1, f, e =>
    if e ≤ 308 then f / Float.ofScientific 1 false e
    else if f == 0.0 then f
    else scaleTiny fuel (f / Float.ofScientific 1 false 308) (e - 308)

/-- The double `significand * 10 ^ exponent`, or nothing if it is beyond the doubles. -/
def decimalValue? (significand : Nat) (exponent : Int) : Option Float :=
  let f := significand.toUInt64.toFloat
  if 0 ≤ exponent then
    if exponent ≤ 308 then
      let x := f * Float.ofScientific 1 false exponent.toNat
      if x.isInf then none else some x
    else if significand = 0 then some f
    else none
  else some (scaleTiny 8 f (-exponent).toNat)

/-- Exponents outside 32 bits only tell zero from infinity. -/
def clampExponent (e : Int) : Int :=
  max (-2147483648) (min 2147483647 e)

/-- The value of a decimal with its sign. -/
def Numeral.decimal? (n : Numeral) : Option Float :=
  let (sig, dropped) := significand 0 n.whole
  let base : Int := dropped.length
  let (sig, exponent) :=
    match n.fraction? with
    | none => (sig, base)
    | some digits =>
      let (sig', unread) := significand sig digits
      (sig', base - ((digits.length - unread.length : Nat) : Int))
  let magnitude :=
    match n.exponent? with
    | none => decimalValue? sig exponent
    | some (positive, digits) =>
      let e := digits.foldl (fun acc c => 10 * acc + digitValue c) 0
      if e ≤ 2147483647 then
        decimalValue? sig (clampExponent (if positive then exponent + e else exponent - e))
      else if positive && sig != 0 then none
      else some 0.0
  magnitude.map fun x => if n.negative then -x else x

/-- What a number is to its reader: a natural number, a negative one, or the text of a decimal. -/
inductive Numeric where
  | natural (n : Nat)
  | negative (magnitude : Nat)
  | decimal (text : String)
  deriving Repr, DecidableEq

/-- A number that is no integer, by its shortest text; one beyond the doubles is malformed. -/
def Numeral.asDecimal (n : Numeral) : Except ReadError Numeric :=
  match n.decimal? with
  | some x => .ok (.decimal (Text.shortest x))
  | none => .error .malformed

/-- Integers of 64 bits stay exact; all other numbers are decimals. -/
def Numeral.classify (n : Numeral) : Except ReadError Numeric :=
  match n.fraction?, n.exponent?, significand 0 n.whole with
  | none, none, (sig, []) =>
    if !n.negative then .ok (.natural sig)
    else if sig = 0 ∨ longMax / 2 + 1 < sig then n.asDecimal
    else .ok (.negative sig)
  | _, _, _ => n.asDecimal

/-- A number and what it is. -/
def readNumeric (cs : List Char) : Except ReadError (Numeric × List Char) := do
  let (n, rest) ← readNumeral cs
  return (← n.classify, rest)

def Numeric.found : Numeric → Found
  | .natural n => .integer n
  | .negative m => .integer (-m)
  | .decimal text => .decimal text

/-- Consumes the digits of a skipped number; where the text ends inside it, it is malformed. -/
def skipNumeral (cs : List Char) : Except ReadError (List Char) :=
  match readNumeral cs with
  | .ok (_, rest) => .ok rest
  | .error _ => .error .malformed

end HeapRetention.Json
