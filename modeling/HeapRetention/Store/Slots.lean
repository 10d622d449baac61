import HeapRetention.Numbers
import HeapRetention.Store.Word
import Std.Data.TreeMap

/-!
Lists of words with a capacity fixed at creation, zero at first. `Slots` keeps the words in memory,
`MappedSlots` as the bytes of a backing file. An index outside the capacity crashes and changes nothing.
-/

namespace HeapRetention

/-- Words in memory. The words of the low indices lie side by side up to the last one that was ever
written; of the others only those that were written take room. -/
structure Slots where
  capacity : Nat
  low : Array Nat := #[]
  high : Std.TreeMap Nat Nat := ∅
  deriving Repr, Inhabited

namespace Slots

/-- Memory cannot hold every list: its bytes have to be addressable with a sign to spare. -/
def checkSize (width : WordWidth) (capacity : Nat) : Except Crash Unit :=
  if longMax / 2 < capacity * width.bytes then .error .capacityOverflow else .ok ()

/-- The first of the high indices. -/
def firstHigh : Nat := 1048576

/-- A list of zeros. -/
def create (capacity : Nat) : Slots where
  capacity := capacity

/-- The word at an index, zero outside the capacity. -/
def get (s : Slots) (i : Nat) : Nat :=
  if i < s.capacity then
    if i < firstHigh then s.low.getD i 0 else s.high.getD i 0
  else 0

/-- Appends zeros until there are at least `count` words. -/
def grow (words : Array Nat) (count : Nat) : Array Nat :=
  if words.size < count then words ++ Array.replicate (count - words.size) 0 else words

/-- Replaces the word at an index; outside the capacity nothing changes. -/
def put : Slots → Nat → Nat → Slots
  | ⟨capacity, low, high⟩, i, v =>
    if i < capacity then
      if i < firstHigh then ⟨capacity, (grow low (i + 1)).setIfInBounds i v, high⟩
      else ⟨capacity, low, high.insert i v⟩
    else ⟨capacity, low, high⟩

theorem le_size_grow (words : Array Nat) (count : Nat) : count ≤ (grow words count).size := by
  unfold grow
  split
  · rw [Array.size_append, Array.size_replicate]
    omega
  · omega

theorem getD_grow (words : Array Nat) (count i : Nat) : (grow words count).getD i 0 = words.getD i 0 := by
  unfold grow
  split
  · rw [Array.getD_eq_getD_getElem?, Array.getD_eq_getD_getElem?, Array.getElem?_append]
    by_cases hi : i < words.size
    · rw [if_pos hi]
    · rw [if_neg hi, Array.getElem?_replicate, Array.getElem?_eq_none (by omega)]
      split <;> rfl
  · rfl

theorem getD_setIfInBounds_grow (words : Array Nat) (i j v : Nat) :
    ((grow words (i + 1)).setIfInBounds i v).getD j 0 = if i = j then v else words.getD j 0 := by
  have hsize := le_size_grow words (i + 1)
  by_cases hij : i = j
  · subst hij
    rw [if_pos rfl, Array.getD_eq_getD_getElem?, Array.getElem?_setIfInBounds_self_of_lt (by omega),
      Option.getD_some]
  · rw [if_neg hij, Array.getD_eq_getD_getElem?, Array.getElem?_setIfInBounds_ne hij,
      ← Array.getD_eq_getD_getElem?, getD_grow]

@[simp]
theorem capacity_create (n : Nat) : (create n).capacity = n :=
  rfl

@[simp]
theorem get_create (n i : Nat) : (create n).get i = 0 := by
  unfold create get
  rw [Std.TreeMap.getD_emptyc]
  split
  · split <;> rfl
  · rfl

theorem put_of_low {s : Slots} {i : Nat} (h : i < s.capacity) (hlow : i < firstHigh) (v : Nat) :
    s.put i v = ⟨s.capacity, (grow s.low (i + 1)).setIfInBounds i v, s.high⟩ :=
  (if_pos h).trans (if_pos hlow)

theorem put_of_high {s : Slots} {i : Nat} (h : i < s.capacity) (hhigh : ¬i < firstHigh) (v : Nat) :
    s.put i v = ⟨s.capacity, s.low, s.high.insert i v⟩ :=
  (if_pos h).trans (if_neg hhigh)

theorem put_of_not_lt {s : Slots} {i : Nat} (h : ¬i < s.capacity) (v : Nat) : s.put i v = s :=
  if_neg h

@[simp]
theorem capacity_put (s : Slots) (i v : Nat) : (s.put i v).capacity = s.capacity := by
  by_cases hi : i < s.capacity
  · by_cases hlow : i < firstHigh
    · rw [put_of_low hi hlow]
    · rw [put_of_high hi hlow]
  · rw [put_of_not_lt hi]

theorem get_put (s : Slots) (i j v : Nat) :
    (s.put i v).get j = if i = j ∧ i < s.capacity then v else s.get j := by
  by_cases hi : i < s.capacity
  · have hiff : (i = j ∧ i < s.capacity) = (i = j) := by rw [and_iff_left hi]
    simp only [hiff]
    by_cases hlow : i < firstHigh
    · rw [put_of_low hi hlow]
      unfold get
      rw [getD_setIfInBounds_grow]
      by_cases hij : i = j
      · subst hij
        rw [if_pos hi, if_pos hlow, if_pos rfl, if_pos rfl]
      · rw [if_neg hij, if_neg hij]
    · rw [put_of_high hi hlow]
      unfold get
      rw [Std.TreeMap.getD_insert]
      by_cases hij : i = j
      · subst hij
        rw [if_pos hi, if_neg hlow, if_pos Std.ReflCmp.compare_self, if_pos rfl]
      · rw [if_neg fun h => hij (Std.LawfulEqCmp.eq_of_compare h), if_neg hij]
  · rw [put_of_not_lt hi, if_neg (fun h => hi h.2)]

/-- Reads a word. -/
def read (s : Slots) (i : Nat) : Except Crash Nat :=
  if i < s.capacity then .ok (s.get i) else .error (.indexOutOfBounds i s.capacity)

/-- Writes a word. -/
def write (s : Slots) (i v : Nat) : Except Crash Slots :=
  if i < s.capacity then .ok (s.put i v) else .error (.indexOutOfBounds i s.capacity)

/-- Zeroes the first `len` words. -/
def zero (s : Slots) (len : Nat) : Slots :=
  { s with
    low := s.low.mapIdx fun i v => if i < len then 0 else v
    high := s.high.map fun i v => if i < len then 0 else v }

theorem get_zero (s : Slots) (len i : Nat) : (s.zero len).get i = if i < len then 0 else s.get i := by
  unfold zero get
  rw [Array.getD_eq_getD_getElem?, Array.getD_eq_getD_getElem?, Array.getElem?_mapIdx,
    Std.TreeMap.getD_map, Std.TreeMap.getD_eq_getD_getElem?]
  cases s.low[i]? <;> cases s.high[i]? <;>
    simp only [Option.map_none, Option.map_some, Option.getD_none, Option.getD_some] <;>
    by_cases hlen : i < len <;> simp only [hlen, if_true, if_false, ite_self]

/-- Zeroes the first `len` words; there have to be that many. -/
def clear (s : Slots) (len : Nat) : Except Crash Slots :=
  if len ≤ s.capacity then .ok (s.zero len) else .error (.indexOutOfBounds len s.capacity)

end Slots

/-- Words as the bytes of a file, which is told by the byte at each offset. -/
structure MappedSlots where
  width : WordWidth
  capacity : Nat
  byteAt : Nat → UInt8

namespace MappedSlots

/-- The length of the backing file; an empty file cannot be mapped. -/
def fileLength (width : WordWidth) (capacity : Nat) : Nat :=
  max 1 (capacity * width.bytes)

/-- The bytes of a list have to have a number of 64 bits. -/
def checkAddress (width : WordWidth) (capacity : Nat) : Except IoError Unit :=
  if longMax < capacity * width.bytes then .error { text := "list size overflows usize" } else .ok ()

/-- A file cannot be as long as every list. One of 64 terabytes and more is refused. -/
def checkLength (width : WordWidth) (capacity : Nat) : Except IoError Unit :=
  if longMax / 2 < capacity * width.bytes then .error { text := "number too large to fit in target type" }
  else if powerOfTwo 46 ≤ capacity * width.bytes then .error { text := "File too large (os error 27)" }
  else .ok ()

/-- Whether a list can live in a file. -/
def checkSize (width : WordWidth) (capacity : Nat) : Except IoError Unit := do
  checkAddress width capacity
  checkLength width capacity

/-- A list over a file of zeros. -/
def create (width : WordWidth) (capacity : Nat) : Except IoError MappedSlots :=
  match checkSize width capacity with
  | .error e => .error e
  | .ok () => .ok ⟨width, capacity, fun _ => 0⟩

/-- The bytes of the word at an index. -/
def wordAt (m : MappedSlots) (i : Nat) : List UInt8 :=
  (List.range m.width.bytes).map fun k => m.byteAt (i * m.width.bytes + k)

/-- Writes bytes from an offset on. -/
def splice (byteAt : Nat → UInt8) (offset : Nat) (word : List UInt8) : Nat → UInt8 :=
  fun j => if offset ≤ j then (word[j - offset]?).getD (byteAt j) else byteAt j

/-- Reads a word. -/
def read (m : MappedSlots) (i : Nat) : Except Crash Nat :=
  if i < m.capacity then m.width.decode (m.wordAt i) else .error (.indexOutOfBounds i m.capacity)

/-- Writes a word. -/
def write (m : MappedSlots) (i v : Nat) : Except Crash MappedSlots :=
  if i < m.capacity then
    .ok { m with byteAt := splice m.byteAt (i * m.width.bytes) (m.width.encode v) }
  else .error (.indexOutOfBounds i m.capacity)

/-- Zeroes the first `len` words, all of them if there are fewer. -/
def clear (m : MappedSlots) (len : Nat) : MappedSlots :=
  { m with byteAt := fun j => if j < min len m.capacity * m.width.bytes then 0 else m.byteAt j }

end MappedSlots

/-- A list of words of either kind. A value that is written is cut to the width of the words. -/
inductive WordList where
  | memory (width : WordWidth) (slots : Slots)
  | mapped (slots : MappedSlots)

namespace WordList

def create (mapped : Bool) (width : WordWidth) (capacity : Nat) : Except Failure WordList :=
  if mapped then
    match MappedSlots.create width capacity with
    | .ok m => .ok (.mapped m)
    | .error e => .error (.error (.io e))
  else
    match Slots.checkSize width capacity with
    | .ok () => .ok (.memory width (.create capacity))
    | .error c => .error (.crash c)

def capacity : WordList → Nat
  | .memory _ s => s.capacity
  | .mapped m => m.capacity

def read : WordList → Nat → Except Crash Nat
  | .memory _ s, i => s.read i
  | .mapped m, i => m.read i

def write : WordList → Nat → Nat → Except Crash WordList
  | .memory width s, i, v => .memory width <$> s.write i (width.truncate v)
  | .mapped m, i, v => .mapped <$> m.write i v

def clear : WordList → Nat → Except Crash WordList
  | .memory width s, len => .memory width <$> s.clear len
  | .mapped m, len => .ok (.mapped (m.clear len))

/-- All words in order. -/
def toList (l : WordList) : Except Crash (List Nat) :=
  (List.range l.capacity).mapM l.read

end WordList

end HeapRetention
