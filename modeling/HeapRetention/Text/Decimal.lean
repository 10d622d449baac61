import HeapRetention.Numbers

/-!
Decimal text of binary floating point numbers, computed from the exact value in natural numbers.
`fixedPlaces` rounds to a given number of places, a half going to the even neighbour; `shortest`
gives the fewest digits that read back as the same number.
-/

namespace HeapRetention.Text

/-- The magnitude `mantissa * 2 ^ exponent` of a finite double. -/
structure Binary where
  mantissa : Nat
  exponent : Int

/-- Splits a double into mantissa and exponent; the sign is dropped. -/
def Binary.ofFloat (x : Float) : Binary :=
  let bits := x.toBits.toNat
  let fraction := bits % powerOfTwo 52
  let biased := bits / powerOfTwo 52 % powerOfTwo 11
  if biased = 0 then ⟨fraction, -1074⟩ else ⟨fraction + powerOfTwo 52, Int.ofNat biased - 1075⟩

/-- The sign bit; zero and not-a-number have one too. -/
def isNegative (x : Float) : Bool :=
  x.toBits.toNat / powerOfTwo 63 = 1

/-- The quotient rounded to the nearest integer, a half to the even neighbour. -/
def roundDiv (num den : Nat) : Nat :=
  let q := num / den
  let r := num % den
  if 2 * r < den then q else if den < 2 * r then q + 1 else if q % 2 = 0 then q else q + 1

/-- The decimal digits of `n`, with zeros in front up to `width` digits. -/
def paddedDigits (width n : Nat) : String :=
  let digits := toString n
  String.ofList (List.replicate (width - digits.length) '0') ++ digits

/-- The magnitude times `10 ^ places`, rounded to an integer. -/
def Binary.scaled (b : Binary) (places : Nat) : Nat :=
  if 0 ≤ b.exponent then b.mantissa * powerOfTwo b.exponent.toNat * powerOfTen places
  else roundDiv (b.mantissa * powerOfTen places) (powerOfTwo (-b.exponent).toNat)

/-- Text with exactly `places` digits after the point. -/
def fixedPlaces (places : Nat) (x : Float) : String :=
  if x.isNaN then "NaN"
  else
    let sign := if isNegative x then "-" else ""
    if x.isInf then sign ++ "inf"
    else
      let n := (Binary.ofFloat x).scaled places
      let whole := toString (n / powerOfTen places)
      if places = 0 then sign ++ whole
      else sign ++ whole ++ "." ++ paddedDigits places (n % powerOfTen places)

/-- The open or closed interval of reals that round to a given double, in units of `2 ^ exponent`. -/
structure Rounding where
  low : Nat
  value : Nat
  high : Nat
  closed : Bool
  exponent : Int

/-- Quarter units of the mantissa hold both half gaps; the gap below a power of two is half as wide. -/
def Rounding.of (b : Binary) : Rounding :=
  let narrow := b.mantissa = powerOfTwo 52 ∧ -1074 < b.exponent
  { low := 4 * b.mantissa - (if narrow then 1 else 2)
    value := 4 * b.mantissa
    high := 4 * b.mantissa + 2
    closed := b.mantissa % 2 = 0
    exponent := b.exponent - 2 }

/-- The two sides of comparing `n * 2 ^ exponent` with multiples of `10 ^ grid`, without fractions. -/
def onGrid (exponent grid : Int) (n : Nat) : Nat × Nat :=
  (n * powerOfTwo exponent.toNat * powerOfTen (-grid).toNat,
    powerOfTwo (-exponent).toNat * powerOfTen grid.toNat)

/-- Whether `d * 10 ^ grid` rounds to the double. -/
def Rounding.holds (r : Rounding) (grid : Int) (d : Nat) : Bool :=
  let (low, unit) := onGrid r.exponent grid r.low
  let (high, _) := onGrid r.exponent grid r.high
  if r.closed then low ≤ d * unit && d * unit ≤ high else low < d * unit && d * unit < high

/-- The multiple of `10 ^ grid` that rounds to the double, the nearer of two. -/
def Rounding.onGrid? (r : Rounding) (grid : Int) : Option Nat :=
  let (value, unit) := onGrid r.exponent grid r.value
  let d := value / unit
  match r.holds grid d && d != 0, r.holds grid (d + 1) with
  | true, true =>
    let below := value - d * unit
    let above := (d + 1) * unit - value
    if below < above then some d
    else if above < below then some (d + 1)
    else if d % 2 = 0 then some d else some (d + 1)
  | true, false => some d
  | false, true => some (d + 1)
  | false, false => none

/-- The coarsest decimal grid with a member that rounds to the double, searched downwards. -/
def Rounding.coarsest (r : Rounding) : Nat → Int → Nat × Int
  | 0, grid => (0, grid)
  | fuel + 1, grid =>
    match r.onGrid? grid with
    | some d => (d, grid)
    | none => r.coarsest fuel (grid - 1)

/-- Digits and decimal exponent of the shortest decimal that reads back as the magnitude. -/
def Binary.shortest (b : Binary) : Nat × Int :=
  (Rounding.of b).coarsest 700 310

/-- Zeros in a row. -/
def zeros (n : Nat) : String :=
  String.ofList (List.replicate n '0')

/-- An exponent with its sign. -/
def signedExponent (e : Int) : String :=
  (if e < 0 then "-" else "+") ++ toString e.natAbs

/-- Positional from `1e-5` up to `1e16`, always with a point; scientific outside. -/
def shortestMagnitude (b : Binary) : String :=
  if b.mantissa = 0 then "0.0"
  else
    let (d, grid) := b.shortest
    let digits := toString d
    let point := (digits.length : Int) + grid
    if 0 ≤ grid ∧ point ≤ 16 then digits ++ zeros grid.toNat ++ ".0"
    else if 0 < point ∧ point ≤ 16 then
      String.ofList (digits.toList.take point.toNat) ++ "." ++ String.ofList (digits.toList.drop point.toNat)
    else if -5 < point ∧ point ≤ 0 then "0." ++ zeros (-point).toNat ++ digits
    else
      let mantissa :=
        match digits.toList with
        | c :: [] => String.ofList [c]
        | c :: cs => String.ofList (c :: '.' :: cs)
        | [] => ""
      mantissa ++ "e" ++ signedExponent (point - 1)

/-- The shortest text that reads back as `x`. -/
def shortest (x : Float) : String :=
  (if isNegative x then "-" else "") ++ shortestMagnitude (Binary.ofFloat x)

end HeapRetention.Text
