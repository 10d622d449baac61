import HeapRetention.Text.UppercaseTable

/-!
Upper case of a text by the full mapping of Unicode: one character may become several, as the German
sharp s does. Section headers of the report are written with it.
-/

namespace HeapRetention.Text

def UppercaseRun.holds (r : UppercaseRun) (code : Nat) : Bool :=
  r.first ≤ code && code ≤ r.last && (code - r.first) % r.stride == 0

/-- The upper case of one character; a character without one stays as it is. -/
def upperChar (c : Char) : List Char :=
  if c.val < 128 then [c.toUpper]
  else
    match uppercaseExpansions.lookup c.toNat with
    | some codes => codes.map Char.ofNat
    | none =>
      match uppercaseRuns.find? (·.holds c.toNat) with
      | some r => [Char.ofNat ((c.toNat : Int) + r.shift).toNat]
      | none => [c]

def uppercase (text : String) : String :=
  String.ofList (text.toList.flatMap upperChar)

/-- The title line of a section of the report. -/
def sectionHeader (name : String) : String :=
  "======== " ++ uppercase name ++ " ========"

end HeapRetention.Text
