import HeapRetention.Text.Decimal

/-!
Short texts of counts and byte sizes: the number is divided down to a readable unit and keeps three
significant digits.
-/

namespace HeapRetention.Text

/-- Divides by `base` while the value is not below it and a larger unit remains. -/
def scaleDown (base : Float) : Float → String → List String → Float × String
  | x, unit, [] => (x, unit)
  | x, unit, larger :: rest => if x < base then (x, unit) else scaleDown base (x / base) larger rest

/-- Three significant digits as long as the number is below a thousand. -/
def threeDigits (x : Float) : String :=
  if x < 10.0 then fixedPlaces 2 x else if x < 100.0 then fixedPlaces 1 x else fixedPlaces 0 x

/-- A value that needs no larger unit is written in full. -/
def shortQuantity (base : Float) (unit : String) (larger : List String) (value : Nat) : String :=
  let x := value.toUInt64.toFloat
  match larger with
  | [] => toString value ++ unit
  | next :: rest =>
    if x < base then toString value ++ unit
    else
      let (scaled, suffix) := scaleDown base (x / base) next rest
      threeDigits scaled ++ suffix

/-- Blanks in front of `text` up to `width` characters. -/
def padLeft (width : Nat) (text : String) : String :=
  String.ofList (List.replicate (width - text.length) ' ') ++ text

/-- A count in thousands, millions and so on. -/
def shortCount (count : Nat) : String :=
  shortQuantity 1000.0 "" ["K", "M", "G", "T"] count

/-- A size in bytes, kilobytes and so on, a kilobyte being 1024 bytes. -/
def shortSize (bytes : Nat) : String :=
  shortQuantity 1024.0 "b" ["KB", "MB", "GB", "TB"] bytes

/-- A short count in a column six wide. -/
def paddedCount (count : Nat) : String :=
  padLeft 6 (shortCount count)

/-- A short size in a column seven wide. -/
def paddedSize (bytes : Nat) : String :=
  padLeft 7 (shortSize bytes)

end HeapRetention.Text
