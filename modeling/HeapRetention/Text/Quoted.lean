import HeapRetention.Text.PrintableTable

/-!
A text in quotes for a message: quotes, backslashes and characters that do not show are escaped, so the
reader sees exactly which characters the text holds.
-/

namespace HeapRetention.Text

def isPrintable (c : Char) : Bool :=
  if c.val < 128 then 32 ≤ c.val && c.val < 127
  else !(unprintableStretches.any fun (first, last) => first ≤ c.toNat && c.toNat ≤ last)

/-- The hexadecimal digits of `n`, in lower case. -/
def hexDigits (n : Nat) : List Char :=
  Nat.toDigits 16 n

def quotedChar (c : Char) : List Char :=
  if c = '\x00' then ['\\', '0']
  else if c = '\t' then ['\\', 't']
  else if c = '\r' then ['\\', 'r']
  else if c = '\n' then ['\\', 'n']
  else if c = '"' then ['\\', '"']
  else if c = '\\' then ['\\', '\\']
  else if isPrintable c then [c]
  else ['\\', 'u', '\x7b'] ++ hexDigits c.toNat ++ ['\x7d']

def quoted (text : String) : String :=
  String.ofList ('"' :: text.toList.flatMap quotedChar ++ ['"'])

end HeapRetention.Text
