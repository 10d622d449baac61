import HeapRetention.Dominance.Cards
import Mathlib.Algebra.Group.Nat.Defs

/-! The dirty cards as a set. A chunk is read bit by bit: marking a card adds it, clearing a card removes
it, and a new table has every card of its numbers. -/
namespace HeapRetention.CardTable

def isSet (chunk : UInt64) (card : Nat) : Bool :=
  chunk.toBitVec.getLsbD (card % 64)

theorem bit_toBitVec (card : Nat) : (bit card).toBitVec = BitVec.twoPow 64 (card % 64) := by
  have hall : ∀ k : Fin 64, ((1 : UInt64) <<< UInt64.ofNat k.val).toBitVec = BitVec.twoPow 64 k.val := by
    decide
  exact hall ⟨card % 64, Nat.mod_lt _ (by decide)⟩

theorem and_bit_eq_zero_iff (chunk : UInt64) (card : Nat) :
    chunk &&& bit card = 0 ↔ isSet chunk card = false := by
  have hmod : card % 64 < 64 := Nat.mod_lt _ (by decide)
  unfold isSet
  rw [← UInt64.toBitVec_inj, UInt64.toBitVec_and, bit_toBitVec, BitVec.and_twoPow]
  cases chunk.toBitVec.getLsbD (card % 64) with
  | false => exact iff_of_true rfl rfl
  | true =>
    rw [if_pos rfl]
    refine iff_of_false ?_ Bool.noConfusion
    intro h
    have hbit := congrArg (fun v => v.getLsbD (card % 64)) h
    simp [hmod] at hbit

theorem isDirty_iff (t : CardTable) (card : Nat) :
    t.isDirty card = true ↔ isSet (t.chunk (card / 64)) card = true := by
  unfold isDirty
  rw [bne_iff_ne, ne_eq, and_bit_eq_zero_iff, Bool.not_eq_false]

theorem isSet_or_bit (chunk : UInt64) (card other : Nat) :
    isSet (chunk ||| bit card) other = (isSet chunk other || decide (other % 64 = card % 64)) := by
  have hmod : card % 64 < 64 := Nat.mod_lt _ (by decide)
  unfold isSet
  rw [UInt64.toBitVec_or, bit_toBitVec, BitVec.getLsbD_or, BitVec.getLsbD_twoPow]
  simp only [hmod, decide_true, Bool.true_and, eq_comm]

theorem isSet_and_not_bit (chunk : UInt64) (card other : Nat) :
    isSet (chunk &&& ~~~bit card) other = (isSet chunk other && decide (other % 64 ≠ card % 64)) := by
  have hmod : card % 64 < 64 := Nat.mod_lt _ (by decide)
  have hmod' : other % 64 < 64 := Nat.mod_lt _ (by decide)
  unfold isSet
  rw [UInt64.toBitVec_and, UInt64.toBitVec_not, bit_toBitVec, BitVec.getLsbD_and, BitVec.getLsbD_not,
    BitVec.getLsbD_twoPow]
  simp only [hmod, hmod', decide_true, Bool.true_and, eq_comm, ne_eq, decide_not]

theorem getD_modify {α : Type} (xs : Array α) (i j : Nat) (g : α → α) (z : α) :
    (xs.modify i g).getD j z = if i = j ∧ i < xs.size then g (xs.getD j z) else xs.getD j z := by
  rw [Array.getD_eq_getD_getElem?, Array.getD_eq_getD_getElem?, Array.getElem?_modify]
  by_cases hij : i = j
  · subst hij
    by_cases hi : i < xs.size
    · rw [if_pos rfl, if_pos ⟨rfl, hi⟩, Array.getElem?_eq_getElem hi]
      rfl
    · rw [if_pos rfl, if_neg fun h => hi h.2, Array.getElem?_eq_none (by omega)]
      rfl
  · rw [if_neg hij, if_neg fun h => hij h.1]

/-- Marking adds a card of the table to the dirty ones. -/
theorem isDirty_mark (t : CardTable) (card other : Nat) :
    (t.mark card).isDirty other = true ↔
      t.isDirty other = true ∨ (other = card ∧ card / 64 < t.chunks.size) := by
  rw [isDirty_iff, isDirty_iff]
  unfold mark chunk
  dsimp only
  rw [getD_modify]
  by_cases h : card / 64 = other / 64 ∧ card / 64 < t.chunks.size
  · rw [if_pos h, isSet_or_bit, Bool.or_eq_true, decide_eq_true_iff]
    have hiff : other % 64 = card % 64 ↔ other = card ∧ card / 64 < t.chunks.size := by
      constructor
      · intro hm
        exact ⟨by omega, h.2⟩
      · rintro ⟨rfl, -⟩
        rfl
    rw [hiff]
  · rw [if_neg h, or_iff_left]
    rintro ⟨rfl, hlt⟩
    exact h ⟨rfl, hlt⟩

theorem isDirty_clear (t : CardTable) (card other : Nat) :
    (t.clear card).isDirty other = true ↔ t.isDirty other = true ∧ other ≠ card := by
  rw [isDirty_iff, isDirty_iff]
  unfold clear chunk
  dsimp only
  rw [getD_modify]
  by_cases h : card / 64 = other / 64 ∧ card / 64 < t.chunks.size
  · rw [if_pos h, isSet_and_not_bit, Bool.and_eq_true, decide_eq_true_iff]
    have hiff : other % 64 ≠ card % 64 ↔ other ≠ card := by omega
    rw [hiff]
  · rw [if_neg h]
    refine ⟨fun hs => ⟨hs, ?_⟩, And.left⟩
    -- a bit beyond the last chunk is never set
    rintro rfl
    have hout : ¬ other / 64 < t.chunks.size := fun hlt => h ⟨rfl, hlt⟩
    rw [Array.getD_eq_getD_getElem?, Array.getElem?_eq_none (by omega)] at hs
    simp [isSet] at hs

@[simp]
theorem bits_mark (t : CardTable) (card : Nat) : (t.mark card).bits = t.bits :=
  rfl

@[simp]
theorem bits_clear (t : CardTable) (card : Nat) : (t.clear card).bits = t.bits :=
  rfl

@[simp]
theorem size_chunks_mark (t : CardTable) (card : Nat) : (t.mark card).chunks.size = t.chunks.size :=
  Array.size_modify

@[simp]
theorem size_chunks_clear (t : CardTable) (card : Nat) : (t.clear card).chunks.size = t.chunks.size :=
  Array.size_modify

theorem bits_foldl_mark (t : CardTable) (cards : List Nat) : (cards.foldl mark t).bits = t.bits := by
  induction cards generalizing t with
  | nil => rfl
  | cons c cards ih => rw [List.foldl_cons, ih, bits_mark]

theorem size_chunks_foldl_mark (t : CardTable) (cards : List Nat) :
    (cards.foldl mark t).chunks.size = t.chunks.size := by
  induction cards generalizing t with
  | nil => rfl
  | cons c cards ih => rw [List.foldl_cons, ih, size_chunks_mark]

theorem isDirty_foldl_mark (t : CardTable) (cards : List Nat) (card : Nat)
    (h : t.isDirty card = true) : (cards.foldl mark t).isDirty card = true := by
  induction cards generalizing t with
  | nil => exact h
  | cons c cards ih =>
    rw [List.foldl_cons]
    exact ih _ ((isDirty_mark t c card).mpr (Or.inl h))

theorem toNat_lowBits {n : Nat} (hn : n < 64) : (lowBits n).toNat = 2 ^ n - 1 := by
  have hall : ∀ k : Fin 64, (lowBits k.val).toNat = 2 ^ k.val - 1 := by decide
  exact hall ⟨n, hn⟩

theorem isSet_lowBits {n card : Nat} (hn : n < 64) (hc : card % 64 < n) :
    isSet (lowBits n) card = true := by
  unfold isSet
  rw [BitVec.getLsbD, UInt64.toNat_toBitVec, toNat_lowBits hn, Nat.testBit_two_pow_sub_one]
  exact decide_eq_true hc

/-- In a new table every card is dirty. -/
theorem isDirty_covering (top card : Nat) (h : card < (covering top).count) :
    (covering top).isDirty card = true := by
  rw [isDirty_iff]
  unfold chunk covering
  dsimp only
  have hcount : (covering top).count = top / powerOfTwo (bitsFor top) + 1 := rfl
  rw [hcount] at h
  generalize top / powerOfTwo (bitsFor top) + 1 = count at h
  have hfull : isSet (0xFFFFFFFFFFFFFFFF : UInt64) card = true := by
    have hall : ∀ i : Fin 64, (0xFFFFFFFFFFFFFFFF : UInt64).toBitVec.getLsbD i.val = true := by decide
    exact hall ⟨card % 64, Nat.mod_lt _ (by decide)⟩
  rw [Array.getD_eq_getD_getElem?]
  by_cases hwhole : card / 64 < count / 64
  · have hget : (Array.replicate (count / 64) (0xFFFFFFFFFFFFFFFF : UInt64))[card / 64]? =
        some 0xFFFFFFFFFFFFFFFF := by
      rw [Array.getElem?_replicate, if_pos hwhole]
    split
    · rw [hget]
      exact hfull
    · rw [Array.getElem?_push, Array.size_replicate, if_neg (by omega), hget]
      exact hfull
  · rw [if_neg (by omega), Array.getElem?_push, Array.size_replicate, if_pos (by omega)]
    exact isSet_lowBits (Nat.mod_lt _ (by decide)) (by omega)

/-- The cards of a new table reach beyond its largest number. -/
theorem lt_count_mul_cardSize (top : Nat) : top < (covering top).count * (covering top).cardSize := by
  have h := Nat.lt_mul_div_succ top (powerOfTwo_pos (bitsFor top))
  rw [Nat.mul_comm] at h
  exact h

/-- The chunks of a new table have room for all of its cards. -/
theorem count_le_size_chunks (top : Nat) : (covering top).count ≤ (covering top).chunks.size * 64 := by
  have hcount : (covering top).count = top / powerOfTwo (bitsFor top) + 1 := rfl
  unfold covering
  dsimp only
  generalize top / powerOfTwo (bitsFor top) + 1 = count
  split
  · rw [Array.size_replicate]
    omega
  · rw [Array.size_push, Array.size_replicate]
    omega

/-- With the upper digits alone every number has 16 bits at most. -/
theorem div_bitsFor_lt (top : Nat) : top / powerOfTwo (bitsFor top) < shortMax + 1 := by
  unfold bitsFor
  by_cases hsmall : top ≤ shortMax
  · rw [if_pos hsmall]
    change top / 1 < _
    rw [Nat.div_one]
    exact Nat.lt_succ_of_le hsmall
  · rw [if_neg hsmall]
    have hcover : top / (shortMax + 1) < powerOfTwo (Nat.log2 (top / (shortMax + 1)) + 1) := Nat.lt_log2_self
    apply Nat.div_lt_of_lt_mul
    exact (Nat.div_lt_iff_lt_mul (Nat.succ_pos _)).mp hcover

/-- The cards of numbers of 32 bits have numbers of 16 bits. -/
theorem count_le_of_top {top : Nat} (h : top ≤ wordMax) :
    (covering top).count ≤ shortMax + 1 ∧ (covering top).cardSize ≤ shortMax + 1 := by
  refine ⟨div_bitsFor_lt top, ?_⟩
  have hsize : (covering top).cardSize = powerOfTwo (bitsFor top) := rfl
  rw [hsize]
  unfold bitsFor
  by_cases hsmall : top ≤ shortMax
  · rw [if_pos hsmall]
    decide
  · rw [if_neg hsmall]
    have hquotient : top / (shortMax + 1) ≠ 0 := by
      rw [Nat.div_ne_zero_iff]
      exact ⟨Nat.succ_ne_zero _, by omega⟩
    have hmany : top / (shortMax + 1) < shortMax + 1 := by
      apply Nat.div_lt_of_lt_mul
      exact Nat.lt_of_le_of_lt h (by decide)
    have hlog : Nat.log2 (top / (shortMax + 1)) < 16 := (Nat.log2_lt hquotient).mpr hmany
    exact Nat.pow_le_pow_right (Nat.succ_pos 1) hlog

/-- How many numbers the chunks of a table cover. -/
def span (t : CardTable) : Nat :=
  t.chunks.size * 64 * t.cardSize

/-- The chunks of a table over numbers of 32 bits cover no more numbers than there are. -/
theorem span_covering_le {top : Nat} (h : top ≤ wordMax) : (covering top).span ≤ wordMax + 1 := by
  obtain ⟨hcount, hsize⟩ := count_le_of_top h
  have hchunks : (covering top).chunks.size * 64 ≤ shortMax + 1 := by
    have hdefined : (covering top).count = top / powerOfTwo (bitsFor top) + 1 := rfl
    rw [hdefined] at hcount
    unfold covering
    dsimp only
    generalize top / powerOfTwo (bitsFor top) + 1 = count at hcount ⊢
    unfold shortMax at hcount ⊢
    split
    · rw [Array.size_replicate]
      omega
    · rw [Array.size_push, Array.size_replicate]
      omega
  exact Nat.mul_le_mul hchunks hsize

end HeapRetention.CardTable
