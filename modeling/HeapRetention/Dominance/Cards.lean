import HeapRetention.Failure
import HeapRetention.Numbers

/-!
A card table: dirty bits over ranges of numbers. A card covers the numbers that agree in all but their
lowest `bits` binary digits. Cards are packed 64 to a chunk, so clean stretches are skipped a word at a
time.
-/

namespace HeapRetention

structure CardTable where
  bits : Nat
  /-- The number of cards. -/
  count : Nat
  chunks : Array UInt64
  deriving Repr, DecidableEq

namespace CardTable

/-- The least number of digits to drop so that the cards of `0` to `top` have numbers of 16 bits. -/
def bitsFor (top : Nat) : Nat :=
  if top ≤ shortMax then 0 else Nat.log2 (top / (shortMax + 1)) + 1

/-- The chunk with the lowest `n` bits set, for `n` below 64. -/
def lowBits (n : Nat) : UInt64 :=
  (1 <<< UInt64.ofNat n) - 1

/-- The bit of a card within its chunk. -/
def bit (card : Nat) : UInt64 :=
  1 <<< UInt64.ofNat (card % 64)

/-- A table over the numbers up to `top` with every card dirty. -/
def covering (top : Nat) : CardTable :=
  let bits := bitsFor top
  let count := top / powerOfTwo bits + 1
  let full := Array.replicate (count / 64) (0xFFFFFFFFFFFFFFFF : UInt64)
  { bits, count, chunks := if count % 64 = 0 then full else full.push (lowBits (count % 64)) }

/-- How many numbers a card covers. -/
def cardSize (t : CardTable) : Nat :=
  powerOfTwo t.bits

/-- The card of a number; cards have 16 bits. -/
def cardOf (t : CardTable) (number : Nat) : Nat :=
  number / t.cardSize % (shortMax + 1)

/-- The dirty bits of 64 cards, zero beyond the last chunk. -/
def chunk (t : CardTable) (index : Nat) : UInt64 :=
  t.chunks.getD index 0

/-- Reads a chunk. -/
def readChunk (t : CardTable) (index : Nat) : Except Crash UInt64 :=
  if index < t.chunks.size then .ok (t.chunk index) else .error (.indexOutOfBounds index t.chunks.size)

/-- Makes a card dirty. -/
def mark (t : CardTable) (card : Nat) : CardTable :=
  { t with chunks := t.chunks.modify (card / 64) fun c => c ||| bit card }

/-- Makes a card clean. -/
def clear (t : CardTable) (card : Nat) : CardTable :=
  { t with chunks := t.chunks.modify (card / 64) fun c => c &&& ~~~bit card }

def isDirty (t : CardTable) (card : Nat) : Bool :=
  t.chunk (card / 64) &&& bit card != 0

/-- The number of set bits among the lowest `n`. -/
def setBits (chunk : UInt64) : Nat → Nat
  | 0 => 0
  | n + 1 => setBits chunk n + (if chunk &&& bit n != 0 then 1 else 0)

/-- The number of dirty cards. -/
def dirtyCount (t : CardTable) : Nat :=
  total (t.chunks.toList.map fun c => setBits c 64)

end CardTable

end HeapRetention
