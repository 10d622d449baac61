import HeapRetention.Failure
import HeapRetention.Numbers

/-!
How the traversal first reached an object, and the 16 bit code it is stored as. Code zero is no role.
-/

namespace HeapRetention

inductive Role where
  /-- The reference field of its holder, counted from zero. -/
  | field (index : Nat)
  | arrayElement
  | syntheticTreeChild
  | fieldOmitted
  | softReference
  | weakReference
  deriving Repr, DecidableEq

namespace Role

/-- Fields from this index on share one role. -/
def fieldLimit : Nat := 250

/-- The role of the reference at `index` of a holder whose first `fieldCount` references are its own and
whose others are synthetic. -/
def forSlot (isArray : Bool) (index fieldCount : Nat) : Role :=
  if fieldCount ≤ index then .syntheticTreeChild
  else if isArray then .arrayElement
  else if index < fieldLimit then .field index
  else .fieldOmitted

def encode : Role → Nat
  | .field index => index + 1
  | .arrayElement => 251
  | .syntheticTreeChild => 252
  | .fieldOmitted => 253
  | .softReference => 254
  | .weakReference => 255

def decode? (code : Nat) : Option Role :=
  if code = 0 then none
  else if code = 251 then some .arrayElement
  else if code = 252 then some .syntheticTreeChild
  else if code = 253 then some .fieldOmitted
  else if code = 254 then some .softReference
  else if code = 255 then some .weakReference
  else if code ≤ fieldLimit then some (.field (code - 1))
  else none

def text : Role → String
  | .field index => "field #" ++ toString (index + 1)
  | .arrayElement => "array element"
  | .syntheticTreeChild => "synthetic tree child"
  | .fieldOmitted => "field (index omitted)"
  | .softReference => "soft reference"
  | .weakReference => "weak reference"

/-- The successor of a field index has to fit 16 bits. -/
def checkField : Role → Except Crash Unit
  | .field index => if index < shortMax then .ok () else .error .overflow
  | _ => .ok ()

/-- The stored code, or a crash if it does not fit 16 bits. -/
def encodeChecked (r : Role) : Except Crash Nat := do
  r.checkField
  return r.encode

/-- The text, or a crash if the field index has no successor in 16 bits. -/
def textChecked (r : Role) : Except Crash String := do
  r.checkField
  return r.text

theorem decode?_succ {index : Nat} (h : index < fieldLimit) :
    decode? (index + 1) = some (.field index) := by
  simp only [fieldLimit] at h
  unfold decode? fieldLimit
  rw [if_neg (by omega), if_neg (by omega), if_neg (by omega), if_neg (by omega), if_neg (by omega),
    if_neg (by omega), if_pos (by omega), Nat.add_sub_cancel]

/-- The role of any slot is read back from its code. -/
theorem decode?_encode_forSlot (isArray : Bool) (index fieldCount : Nat) :
    decode? (forSlot isArray index fieldCount).encode = some (forSlot isArray index fieldCount) := by
  unfold forSlot
  split
  · rfl
  · split
    · rfl
    · split
      · exact decode?_succ (by assumption)
      · rfl

end Role

end HeapRetention
