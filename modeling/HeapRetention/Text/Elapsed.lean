import HeapRetention.Numbers
import HeapRetention.Text.Decimal

/-!
Durations and their text. The unit is the largest of seconds, milli-, micro- and nanoseconds in which
the duration is at least one; the fraction is exact and has no zeros at its end.
-/

namespace HeapRetention

/-- A duration of the analysis. Most are not measured, since the analysis itself has no clock. -/
inductive Elapsed where
  | unmeasured
  | nanoseconds (n : Nat)
  deriving Repr, DecidableEq, Inhabited

/-- A digit string without the zeros at its end. -/
def dropFinalZeros (digits : List Char) : List Char :=
  (digits.reverse.dropWhile (· == '0')).reverse

/-- `n` units of `10 ^ places` nanoseconds each, with the rest as a decimal fraction. -/
def decimalUnits (places n : Nat) (unit : String) : String :=
  let fraction := dropFinalZeros (Text.paddedDigits places (n % powerOfTen places)).toList
  let whole := toString (n / powerOfTen places)
  if fraction.isEmpty || places = 0 then whole ++ unit
  else whole ++ "." ++ String.ofList fraction ++ unit

/-- A duration that was not measured shows as a placeholder. -/
def Elapsed.text : Elapsed → String
  | .unmeasured => "<time>"
  | .nanoseconds n =>
    if powerOfTen 9 ≤ n then decimalUnits 9 n "s"
    else if powerOfTen 6 ≤ n then decimalUnits 6 n "ms"
    else if powerOfTen 3 ≤ n then decimalUnits 3 n "µs"
    else decimalUnits 0 n "ns"

end HeapRetention
