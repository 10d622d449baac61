import HeapRetention.Failure
import HeapRetention.Numbers

/-!
Words of two and of four bytes, stored with the lowest byte first.
-/

namespace HeapRetention

inductive WordWidth where
  | short
  | long
  deriving Repr, DecidableEq, Inhabited

namespace WordWidth

/-- The number of bytes of a word. -/
def bytes : WordWidth → Nat
  | .short => 2
  | .long => 4

/-- The number of values of a word. -/
def bound (w : WordWidth) : Nat :=
  powerOfTwo (8 * w.bytes)

/-- The value cut to the width. -/
def truncate (w : WordWidth) (value : Nat) : Nat :=
  value % w.bound

end WordWidth

/-- The lowest `count` bytes of a value, the lowest one first. -/
def wordBytes : Nat → Nat → List UInt8
  | 0, _ => []
  | count + 1, value => UInt8.ofNat (value % 256) :: wordBytes count (value / 256)

/-- The value of bytes whose first is the lowest. -/
def wordValue : List UInt8 → Nat
  | [] => 0
  | b :: bs => b.toNat + 256 * wordValue bs

theorem length_wordBytes (count value : Nat) : (wordBytes count value).length = count := by
  induction count generalizing value with
  | zero => rfl
  | succ count ih => simp only [wordBytes, List.length_cons, ih]

/-- A word is read back from its bytes, cut to their number. -/
theorem wordValue_wordBytes (count value : Nat) :
    wordValue (wordBytes count value) = value % powerOfTwo (8 * count) := by
  induction count generalizing value with
  | zero => exact (Nat.mod_one value).symm
  | succ count ih =>
    have hb : (UInt8.ofNat (value % 256)).toNat = value % 256 := by
      simp only [UInt8.toNat_ofNat']
      omega
    have hp : powerOfTwo (8 * (count + 1)) = 256 * powerOfTwo (8 * count) := by
      rw [Nat.mul_succ, powerOfTwo_add]
      exact Nat.mul_comm _ _
    rw [wordBytes, wordValue, ih, hb, hp, Nat.mod_mul]

/-- Reads a word; the number of bytes has to be its width. -/
def WordWidth.decode (w : WordWidth) (bytes : List UInt8) : Except Crash Nat :=
  if bytes.length = w.bytes then .ok (wordValue bytes) else .error (.wrongWidth w.bytes bytes.length)

/-- The bytes of a word. -/
def WordWidth.encode (w : WordWidth) (value : Nat) : List UInt8 :=
  wordBytes w.bytes value

end HeapRetention
