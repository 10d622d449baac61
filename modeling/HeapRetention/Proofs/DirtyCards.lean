import HeapRetention.Proofs.RetainedSums
import HeapRetention.Proofs.VisitSchedule
import Mathlib.Data.Finset.Card
import Mathlib.Order.Bounds.Basic

/-! The card table as a set of cards. Whatever is marked and cleared, the bits of the table are those of the
set that gains and loses just the cards named, and a walk over the chunks that are not zero comes to each card
of the set once, the largest first. -/
namespace HeapRetention
namespace CardTable

/-- A card is touched: the card of a number becomes dirty, or a card is cleaned. -/
inductive Touch where
  | mark (number : Nat)
  | clear (card : Nat)

/-- The table after a touch. -/
def touch (t : CardTable) : Touch → CardTable
  | .mark number => t.mark (t.cardOf number)
  | .clear card => t.clear card

/-- The set of dirty cards after a touch. -/
def Touch.onSet (bits : Nat) (dirty : Finset Nat) : Touch → Finset Nat
  | .mark number => insert (number >>> bits) dirty
  | .clear card => dirty.erase card

/-- The dirty cards once a new table was touched; at first all of its cards are dirty. -/
def dirtyAfter (top : Nat) (touches : List Touch) : Finset Nat :=
  touches.foldl (Touch.onSet (bitsFor top)) (Finset.range (covering top).count)

/-- The cards whose bits are set among the lowest `bits` of a chunk, the largest first. -/
def setCards (index : Nat) (chunk : UInt64) : (bits : Nat) → List Nat
  | 0 => []
  | bits + 1 =>
    if chunk &&& bit bits = 0 then setCards index chunk bits
    else (index * 64 + bits) :: setCards index chunk bits

/-- The cards that a walk over the first `chunks` chunks comes to; it passes over those that are zero. -/
def dirtyCards (t : CardTable) : (chunks : Nat) → List Nat
  | 0 => []
  | index + 1 =>
    if t.chunk index = 0 then t.dirtyCards index
    else setCards index (t.chunk index) 64 ++ t.dirtyCards index

variable {t : CardTable} {top number card index bits : Nat} {chunk : UInt64} {dirty : Finset Nat}

/-! ### The cards of numbers -/

theorem shiftRight_eq (n b : Nat) : n >>> b = n / powerOfTwo b :=
  Nat.shiftRight_eq_div_pow n b

/-- No fewer digits can be dropped. -/
theorem isLeast_bitsFor (top : Nat) : IsLeast {b | top >>> b ≤ shortMax} (bitsFor top) := by
  constructor
  · rw [Set.mem_ofPred_eq, shiftRight_eq]
    exact Nat.le_of_lt_succ (div_bitsFor_lt top)
  · intro b hb
    rw [Set.mem_ofPred_eq, shiftRight_eq] at hb
    unfold bitsFor
    by_cases hsmall : top ≤ shortMax
    · rw [if_pos hsmall]
      exact Nat.zero_le b
    · rw [if_neg hsmall]
      have hquotient : top / (shortMax + 1) ≠ 0 := by
        rw [Nat.div_ne_zero_iff]
        exact ⟨Nat.succ_ne_zero _, by omega⟩
      -- a quotient of 16 bits leaves `b` digits at most for the upper part
      have htop : top < (shortMax + 1) * powerOfTwo b :=
        (Nat.div_lt_iff_lt_mul (powerOfTwo_pos b)).mp (Nat.lt_succ_of_le hb)
      have hupper : top / (shortMax + 1) < powerOfTwo b := Nat.div_lt_of_lt_mul htop
      exact (Nat.log2_lt hquotient).mpr hupper

theorem count_covering (top : Nat) : (covering top).count = top >>> bitsFor top + 1 :=
  congrArg (· + 1) (shiftRight_eq top (bitsFor top)).symm

/-- Cutting the card of a number to 16 bits takes nothing away. -/
theorem cardOf_covering (h : number ≤ top) : (covering top).cardOf number = number >>> bitsFor top := by
  have hle : number >>> bitsFor top ≤ shortMax := by
    refine Nat.le_trans ?_ (isLeast_bitsFor top).1
    rw [shiftRight_eq, shiftRight_eq]
    exact Nat.div_le_div_right h
  rw [shiftRight_eq] at hle ⊢
  exact Nat.mod_eq_of_lt (Nat.lt_succ_of_le hle)

theorem shiftRight_lt_count (h : number ≤ top) : number >>> bitsFor top < (covering top).count := by
  rw [count_covering, shiftRight_eq, shiftRight_eq]
  exact Nat.lt_succ_of_le (Nat.div_le_div_right h)

/-- A number lies among those that its card covers. -/
theorem cardOf_bounds (h : number ≤ top) : (covering top).cardOf number <<< bitsFor top ≤ number ∧
    number < ((covering top).cardOf number + 1) <<< bitsFor top := by
  rw [cardOf_covering h, shiftRight_eq, Nat.shiftLeft_eq, Nat.shiftLeft_eq]
  exact ⟨Nat.div_mul_le_self _ _, Nat.lt_mul_of_div_lt (Nat.lt_succ_self _) (powerOfTwo_pos _)⟩

/-! ### The bits -/

theorem isSet_add (chunk : UInt64) (index b : Nat) : isSet chunk (index * 64 + b) = isSet chunk b := by
  unfold isSet
  rw [Nat.mul_add_mod_self_right]

theorem isSet_eq_testBit {b : Nat} (hb : b < 64) : isSet chunk b = chunk.toNat.testBit b := by
  unfold isSet
  rw [Nat.mod_eq_of_lt hb]
  rfl

theorem isSet_zero (card : Nat) : isSet 0 card = false :=
  BitVec.getLsbD_zero

/-- There are no bits beyond the last chunk. -/
theorem lt_of_isDirty (h : t.isDirty card = true) : card < t.chunks.size * 64 := by
  by_contra hout
  rw [isDirty_iff, chunk, Array.getD_eq_getD_getElem?, Array.getElem?_eq_none (by omega)] at h
  exact Bool.false_ne_true ((isSet_zero card).symm.trans h)

/-- In a new table no bit is set beyond the last card. -/
theorem lt_count_of_isDirty (h : (covering top).isDirty card = true) : card < (covering top).count := by
  rw [isDirty_iff] at h
  have hcount : (covering top).count = top / powerOfTwo (bitsFor top) + 1 := rfl
  rw [hcount]
  unfold chunk covering at h
  dsimp only at h
  generalize top / powerOfTwo (bitsFor top) + 1 = count at h ⊢
  by_contra hout
  rw [Array.getD_eq_getD_getElem?] at h
  have hbeyond : (Array.replicate (count / 64) (0xFFFFFFFFFFFFFFFF : UInt64))[card / 64]? = none :=
    Array.getElem?_eq_none (by rw [Array.size_replicate]; omega)
  split at h
  · rw [hbeyond] at h
    exact Bool.false_ne_true ((isSet_zero card).symm.trans h)
  · rw [Array.getElem?_push, Array.size_replicate] at h
    split at h
    -- the chunk of the tail has no more bits than there are cards left
    · have hmod : count % 64 < 64 := Nat.mod_lt _ (by decide)
      unfold isSet at h
      rw [Option.getD_some, BitVec.getLsbD, UInt64.toNat_toBitVec, toNat_lowBits hmod,
        Nat.testBit_two_pow_sub_one, decide_eq_true_iff] at h
      omega
    · rw [hbeyond] at h
      exact Bool.false_ne_true ((isSet_zero card).symm.trans h)

/-- A table of the shape of a new one, with no bit set beyond the last card. -/
structure Fits (t : CardTable) (top : Nat) : Prop where
  bits : t.bits = bitsFor top
  size : t.chunks.size = (covering top).chunks.size
  below : ∀ c, t.isDirty c = true → c < (covering top).count

theorem fits_covering (top : Nat) : (covering top).Fits top :=
  ⟨rfl, rfl, fun _ => lt_count_of_isDirty⟩

namespace Fits

theorem cardSize_eq (h : t.Fits top) : t.cardSize = (covering top).cardSize :=
  congrArg powerOfTwo h.bits

theorem cardOf_eq (h : t.Fits top) (hnumber : number ≤ top) : t.cardOf number = number >>> bitsFor top := by
  rw [← cardOf_covering hnumber]
  unfold cardOf
  rw [h.cardSize_eq]

theorem clear (h : t.Fits top) (card : Nat) : (t.clear card).Fits top where
  bits := h.bits
  size := (size_chunks_clear t card).trans h.size
  below := fun c hc => h.below c ((isDirty_clear t card c).mp hc).1

theorem mark (h : t.Fits top) (hcard : card < (covering top).count) : (t.mark card).Fits top where
  bits := h.bits
  size := (size_chunks_mark t card).trans h.size
  below := by
    intro c hc
    rcases (isDirty_mark t card c).mp hc with hc | ⟨rfl, -⟩
    · exact h.below c hc
    · exact hcard

theorem marks {cards : List Nat} (h : t.Fits top) (hcards : ∀ c ∈ cards, c < (covering top).count) :
    (cards.foldl CardTable.mark t).Fits top := by
  induction cards generalizing t with
  | nil => exact h
  | cons card cards ih =>
    apply ih (h.mark (hcards card List.mem_cons_self))
    exact fun c hc => hcards c (List.mem_cons_of_mem card hc)

end Fits

/-- The bits of a table are those of a set of its cards. -/
structure Shows (t : CardTable) (top : Nat) (dirty : Finset Nat) : Prop extends Fits t top where
  mem : ∀ c, t.isDirty c = true ↔ c ∈ dirty

theorem shows_covering (top : Nat) : (covering top).Shows top (Finset.range (covering top).count) where
  toFits := fits_covering top
  mem := fun c => by
    rw [Finset.mem_range]
    exact ⟨lt_count_of_isDirty, isDirty_covering top c⟩

/-- A touch gains or loses the card that it names and no other. -/
theorem Shows.touch (h : t.Shows top dirty) {τ : Touch} (hτ : ∀ number, τ = .mark number → number ≤ top) :
    (t.touch τ).Shows top (τ.onSet (bitsFor top) dirty) := by
  cases τ with
  | mark number =>
    have hnumber : number ≤ top := hτ number rfl
    have hcard := h.cardOf_eq hnumber
    have hlt := shiftRight_lt_count hnumber
    have hchunks := count_le_size_chunks top
    have hroom : number >>> bitsFor top / 64 < t.chunks.size := by
      rw [h.size]
      omega
    unfold CardTable.touch Touch.onSet
    dsimp only
    rw [hcard]
    refine ⟨h.toFits.mark hlt, fun c => ?_⟩
    rw [isDirty_mark, h.mem c, and_iff_left hroom, Finset.mem_insert, or_comm]
  | clear card =>
    refine ⟨h.toFits.clear card, fun c => ?_⟩
    unfold CardTable.touch Touch.onSet
    dsimp only
    rw [isDirty_clear, h.mem c, Finset.mem_erase, and_comm]

theorem Shows.touches {touches : List Touch} (h : t.Shows top dirty)
    (hτ : ∀ number, Touch.mark number ∈ touches → number ≤ top) :
    (touches.foldl CardTable.touch t).Shows top (touches.foldl (Touch.onSet (bitsFor top)) dirty) := by
  induction touches generalizing t dirty with
  | nil => exact h
  | cons τ touches ih =>
    apply ih (h.touch fun number hn => hτ number (hn ▸ List.mem_cons_self))
    exact fun number hn => hτ number (List.mem_cons_of_mem τ hn)

/-! ### The walk over the chunks -/

theorem mem_setCards : card ∈ setCards index chunk bits ↔
    index * 64 ≤ card ∧ card < index * 64 + bits ∧ isSet chunk card = true := by
  induction bits with
  | zero => exact iff_of_false List.not_mem_nil fun h => by omega
  | succ bits ih =>
    rw [setCards]
    split
    · next hclean =>
      rw [and_bit_eq_zero_iff, ← isSet_add chunk index] at hclean
      rw [ih]
      constructor
      · rintro ⟨hge, hlt, hset⟩
        exact ⟨hge, by omega, hset⟩
      · rintro ⟨hge, hlt, hset⟩
        refine ⟨hge, ?_, hset⟩
        have hne : card ≠ index * 64 + bits := by
          rintro rfl
          exact Bool.false_ne_true (hclean.symm.trans hset)
        omega
    · next hset =>
      rw [and_bit_eq_zero_iff, Bool.not_eq_false, ← isSet_add chunk index] at hset
      rw [List.mem_cons, ih]
      constructor
      · rintro (rfl | ⟨hge, hlt, hcard⟩)
        · exact ⟨by omega, by omega, hset⟩
        · exact ⟨hge, by omega, hcard⟩
      · rintro ⟨hge, hlt, hcard⟩
        by_cases hlast : card = index * 64 + bits
        · exact Or.inl hlast
        · exact Or.inr ⟨hge, by omega, hcard⟩

theorem pairwise_setCards (index : Nat) (chunk : UInt64) (bits : Nat) :
    (setCards index chunk bits).Pairwise (· > ·) := by
  induction bits with
  | zero => exact List.Pairwise.nil
  | succ bits ih =>
    rw [setCards]
    split
    · exact ih
    · exact List.pairwise_cons.mpr ⟨fun c hc => (mem_setCards.mp hc).2.1, ih⟩

theorem length_setCards (index : Nat) (chunk : UInt64) (bits : Nat) :
    (setCards index chunk bits).length = setBits chunk bits := by
  induction bits with
  | zero => rfl
  | succ bits ih =>
    rw [setCards, setBits]
    by_cases hclean : chunk &&& bit bits = 0
    · rw [if_pos hclean, if_neg (by rw [hclean]; decide), ih, Nat.add_zero]
    · rw [if_neg hclean, if_pos (bne_iff_ne.mpr hclean), List.length_cons, ih]

theorem setCards_zero (index bits : Nat) : setCards index 0 bits = [] := by
  apply List.eq_nil_iff_forall_not_mem.mpr
  intro c hc
  exact Bool.false_ne_true ((isSet_zero c).symm.trans (mem_setCards.mp hc).2.2)

/-- Passing over the chunks that are zero makes no difference. -/
theorem dirtyCards_succ (t : CardTable) (index : Nat) :
    t.dirtyCards (index + 1) = setCards index (t.chunk index) 64 ++ t.dirtyCards index := by
  rw [dirtyCards]
  split
  · next hzero =>
    rw [hzero, setCards_zero]
    rfl
  · rfl

theorem mem_dirtyCards {chunks : Nat} :
    card ∈ t.dirtyCards chunks ↔ card < chunks * 64 ∧ t.isDirty card = true := by
  induction chunks with
  | zero => exact iff_of_false List.not_mem_nil fun h => by omega
  | succ index ih =>
    rw [dirtyCards_succ, List.mem_append, mem_setCards, ih, isDirty_iff]
    constructor
    · rintro (⟨hge, hlt, hset⟩ | ⟨hlt, hset⟩)
      · have hindex : card / 64 = index := by omega
        exact ⟨by omega, hindex ▸ hset⟩
      · exact ⟨by omega, hset⟩
    · rintro ⟨hlt, hset⟩
      by_cases hlow : card < index * 64
      · exact Or.inr ⟨hlow, hset⟩
      · have hindex : card / 64 = index := by omega
        exact Or.inl ⟨by omega, by omega, hindex ▸ hset⟩

theorem pairwise_dirtyCards (t : CardTable) (chunks : Nat) : (t.dirtyCards chunks).Pairwise (· > ·) := by
  induction chunks with
  | zero => exact List.Pairwise.nil
  | succ index ih =>
    rw [dirtyCards_succ]
    refine List.pairwise_append.mpr ⟨pairwise_setCards _ _ _, ih, fun c hc d hd => ?_⟩
    have hge := (mem_setCards.mp hc).1
    have hlt := (mem_dirtyCards.mp hd).1
    omega

/-- The walk over all chunks counts the dirty cards. -/
theorem length_dirtyCards (t : CardTable) : (t.dirtyCards t.chunks.size).length = t.dirtyCount := by
  have hwalk : ∀ chunks, (t.dirtyCards chunks).length =
      ((List.range chunks).map fun index => setBits (t.chunk index) 64).sum := by
    intro chunks
    induction chunks with
    | zero => rfl
    | succ index ih =>
      rw [dirtyCards_succ, List.length_append, length_setCards, ih, List.sum_range_succ, Nat.add_comm]
  have hchunks : t.chunks.toList = (List.range t.chunks.size).map t.chunk := by
    apply List.ext_getElem
    · rw [Array.length_toList, List.length_map, List.length_range]
    · intro i hi hi'
      rw [List.getElem_map, List.getElem_range, Array.getElem_toList]
      exact Array.getElem_eq_getD 0
  rw [hwalk, dirtyCount, hchunks, List.map_map, total_eq_sum]
  rfl

theorem Shows.mem_dirtyCards_iff (h : t.Shows top dirty) : card ∈ t.dirtyCards t.chunks.size ↔ card ∈ dirty := by
  rw [mem_dirtyCards, and_iff_right_of_imp lt_of_isDirty]
  exact h.mem card

theorem Shows.dirtyCount_eq (h : t.Shows top dirty) : t.dirtyCount = dirty.card := by
  have hnodup : (t.dirtyCards t.chunks.size).Nodup :=
    (pairwise_dirtyCards t _).imp fun hgt => Nat.ne_of_gt hgt
  have hset : (t.dirtyCards t.chunks.size).toFinset = dirty := by
    ext c
    rw [List.mem_toFinset]
    exact h.mem_dirtyCards_iff
  rw [← length_dirtyCards, ← List.toFinset_card_of_nodup hnodup, hset]

end CardTable

namespace Fixpoint
open CardTable

variable {x : EdgeIndex} {root index size a card : Nat} {chunk : UInt64} {f : Fixpoint}

/-- The numbers that some cards cover, card by card. -/
def numbersOf (size : Nat) (cards : List Nat) : List Nat :=
  cards.flatMap fun c => (List.range' (c * size) size).reverse

theorem mem_numbersOf (hsize : 0 < size) {cards : List Nat} : a ∈ numbersOf size cards ↔ a / size ∈ cards := by
  have hblock : ∀ c, a ∈ (List.range' (c * size) size).reverse ↔ a / size = c := by
    intro c
    rw [List.mem_reverse, List.mem_range'_1, Nat.div_eq_iff hsize]
    omega
  unfold numbersOf
  simp only [List.mem_flatMap, hblock, exists_eq_right']

theorem pairwise_numbersOf (size : Nat) {cards : List Nat} (h : cards.Pairwise (· > ·)) :
    (numbersOf size cards).Pairwise (· > ·) := by
  refine List.pairwise_flatMap.mpr ⟨fun c _ => List.pairwise_reverse.mpr List.pairwise_lt_range', ?_⟩
  refine h.imp fun {c d} hgt a ha b hb => ?_
  rw [List.mem_reverse, List.mem_range'_1] at ha hb
  have hnext : (d + 1) * size ≤ c * size := Nat.mul_le_mul_right size hgt
  rw [Nat.succ_mul] at hnext
  omega

theorem cardSize_visitCard (f : Fixpoint) (card : Nat) :
    (f.visitCard x root card).cards.cardSize = f.cards.cardSize :=
  congrArg powerOfTwo (bits_visitCard x root f card)

theorem cardSize_visitChunk (f : Fixpoint) (index : Nat) (chunk : UInt64) (bits : Nat) :
    (visitChunk x root index chunk bits f).cards.cardSize = f.cards.cardSize :=
  congrArg powerOfTwo (bits_visitChunk x root index chunk bits f)

/-- Within a chunk a pass comes to the cards whose bits are set, as they are when the turn of the chunk comes. -/
theorem chunkSchedule_eq (bits : Nat) (hsize : f.cards.cardSize = size) :
    chunkSchedule x root index chunk bits f = numbersOf size (setCards index chunk bits) := by
  induction bits generalizing f with
  | zero => rfl
  | succ bits ih =>
    rw [chunkSchedule, setCards]
    split
    · exact ih hsize
    · rw [ih ((cardSize_visitCard f _).trans hsize), cardSchedule, hsize]
      rfl

theorem chunksSchedule_succ (x : EdgeIndex) (root : Nat) (hsize : f.cards.cardSize = size) (index : Nat) :
    ∃ f', f'.cards.cardSize = size ∧ (∀ c < index * 64, f.cards.isDirty c = true → f'.cards.isDirty c = true) ∧
      chunksSchedule x root (index + 1) f =
        numbersOf size (setCards index (f.cards.chunk index) 64) ++ chunksSchedule x root index f' := by
  rw [chunksSchedule]
  split
  · next hzero =>
    refine ⟨f.save (f.cards.cardSize * 64), hsize, fun _ _ h => h, ?_⟩
    rw [hzero, setCards_zero]
    rfl
  · refine ⟨visitChunk x root index (f.cards.chunk index) 64 f, (cardSize_visitChunk f _ _ _).trans hsize,
      fun c hc h => isDirty_visitChunk x root hc _ 64 f h, ?_⟩
    rw [chunkSchedule_eq 64 hsize]

/-- The numbers come up from the largest down, none of them twice. -/
theorem descends_chunksSchedule (hpos : 0 < size) (chunks : Nat) (hsize : f.cards.cardSize = size) :
    (chunksSchedule x root chunks f).Pairwise (· > ·) ∧
      ∀ a ∈ chunksSchedule x root chunks f, a < chunks * 64 * size := by
  induction chunks generalizing f with
  | zero => exact ⟨List.Pairwise.nil, fun a ha => absurd ha List.not_mem_nil⟩
  | succ index ih =>
    obtain ⟨f', hsize', -, heq⟩ := chunksSchedule_succ x root hsize index
    obtain ⟨hdescending, hbelow⟩ := ih hsize'
    have hchunk : ∀ a ∈ numbersOf size (setCards index (f.cards.chunk index) 64),
        index * 64 * size ≤ a ∧ a < (index + 1) * 64 * size := by
      intro a ha
      obtain ⟨hge, hlt, -⟩ := mem_setCards.mp ((mem_numbersOf hpos).mp ha)
      exact ⟨(Nat.le_div_iff_mul_le hpos).mp hge, (Nat.div_lt_iff_lt_mul hpos).mp (by omega)⟩
    rw [heq]
    refine ⟨List.pairwise_append.mpr ⟨pairwise_numbersOf size (pairwise_setCards _ _ _), hdescending, ?_⟩, ?_⟩
    · exact fun a ha b hb => Nat.lt_of_lt_of_le (hbelow b hb) (hchunk a ha).1
    · intro a ha
      rcases List.mem_append.mp ha with ha | ha
      · exact (hchunk a ha).2
      · have hlow := hbelow a ha
        have hnext : index * 64 * size ≤ (index + 1) * 64 * size := Nat.mul_le_mul_right size (by omega)
        omega

/-- A card that is dirty when the pass begins still is when its turn comes. -/
theorem mem_chunksSchedule (hpos : 0 < size) {chunks : Nat} (hsize : f.cards.cardSize = size)
    (hcard : a / size < chunks * 64) (hdirty : f.cards.isDirty (a / size) = true) :
    a ∈ chunksSchedule x root chunks f := by
  induction chunks generalizing f with
  | zero => exact absurd hcard (by rw [Nat.zero_mul]; exact Nat.not_lt_zero _)
  | succ index ih =>
    obtain ⟨f', hsize', hkept, heq⟩ := chunksSchedule_succ x root hsize index
    rw [heq, List.mem_append]
    by_cases hlow : a / size < index * 64
    · exact Or.inr (ih hsize' hlow (hkept _ hlow hdirty))
    · have hindex : a / size / 64 = index := by omega
      rw [isDirty_iff, hindex] at hdirty
      exact Or.inl ((mem_numbersOf hpos).mpr (mem_setCards.mpr ⟨by omega, by omega, hdirty⟩))

theorem descends_passSchedule (x : EdgeIndex) (root : Nat) (f : Fixpoint) :
    (f.passSchedule x root).Pairwise (· > ·) ∧ ∀ a ∈ f.passSchedule x root, a < f.cards.span :=
  descends_chunksSchedule (powerOfTwo_pos _) _ rfl

theorem mem_passSchedule (x : EdgeIndex) (root : Nat) (hdirty : f.cards.isDirty (a / f.cards.cardSize) = true) :
    a ∈ f.passSchedule x root :=
  mem_chunksSchedule (powerOfTwo_pos _) rfl (lt_of_isDirty hdirty) hdirty

end Fixpoint

namespace CardTable

/-- The table over the numbers up to `top` once it was touched. -/
def after (top : Nat) (touches : List Touch) : CardTable :=
  touches.foldl touch (covering top)

/-- The card table is a set of cards. A card covers as few numbers as 16 bits for its own number allow, and no
number loses its card when that is cut to 16 bits. After any touches the bits, read card by card or chunk by
chunk, their number and the walk over the chunks that are not zero all are those of the set that has gained and
lost the cards named; and a pass over the cards comes to each number that a dirty card covers once. -/
theorem cardTable_exact (top : Nat) :
    IsLeast {b | top >>> b ≤ shortMax} (bitsFor top) ∧
    (covering top).count = top >>> bitsFor top + 1 ∧
    (∀ number ≤ top, (covering top).cardOf number = number >>> bitsFor top ∧
      (covering top).cardOf number < (covering top).count ∧
      (∀ smaller ≤ number, (covering top).cardOf smaller ≤ (covering top).cardOf number) ∧
      (covering top).cardOf number <<< bitsFor top ≤ number ∧
      number < ((covering top).cardOf number + 1) <<< bitsFor top) ∧
    ∀ touches : List Touch, (∀ number, Touch.mark number ∈ touches → number ≤ top) →
      (∀ card, (after top touches).isDirty card = true ↔ card ∈ dirtyAfter top touches) ∧
      (∀ card ∈ dirtyAfter top touches, card < (covering top).count) ∧
      (∀ index < (after top touches).chunks.size, ∃ chunk, (after top touches).readChunk index = .ok chunk ∧
        ∀ b < 64, chunk.toNat.testBit b = true ↔ index * 64 + b ∈ dirtyAfter top touches) ∧
      (after top touches).dirtyCount = (dirtyAfter top touches).card ∧
      ((after top touches).dirtyCards (after top touches).chunks.size).Pairwise (· > ·) ∧
      (∀ card, card ∈ (after top touches).dirtyCards (after top touches).chunks.size ↔
        card ∈ dirtyAfter top touches) ∧
      ∀ x root f, f.cards = after top touches → (Fixpoint.passSchedule x root f).Pairwise (· > ·) ∧
        ∀ number, number >>> bitsFor top ∈ dirtyAfter top touches → number ∈ Fixpoint.passSchedule x root f := by
  refine ⟨isLeast_bitsFor top, count_covering top, fun number hnumber => ?_, fun touches htouches => ?_⟩
  · have hcard := cardOf_covering hnumber
    refine ⟨hcard, hcard ▸ shiftRight_lt_count hnumber, fun smaller hsmaller => ?_, cardOf_bounds hnumber⟩
    rw [hcard, cardOf_covering (Nat.le_trans hsmaller hnumber), shiftRight_eq, shiftRight_eq]
    exact Nat.div_le_div_right hsmaller
  · have hshows : (after top touches).Shows top (dirtyAfter top touches) := (shows_covering top).touches htouches
    refine ⟨hshows.mem, fun card hcard => hshows.below card ((hshows.mem card).mpr hcard),
      fun index hindex => ⟨_, if_pos hindex, fun b hb => ?_⟩,
      hshows.dirtyCount_eq, pairwise_dirtyCards _ _, fun card => hshows.mem_dirtyCards_iff, fun x root f hf => ?_⟩
    · have hchunk : (index * 64 + b) / 64 = index := by omega
      have hmem := hshows.mem (index * 64 + b)
      rwa [isDirty_iff, hchunk, isSet_add, isSet_eq_testBit hb] at hmem
    · refine ⟨(Fixpoint.descends_passSchedule x root f).1, fun number hdirty => ?_⟩
      have hcard : number >>> bitsFor top = number / f.cards.cardSize := by
        rw [shiftRight_eq, cardSize, hf, hshows.bits]
      rw [hcard, ← hshows.mem, ← hf] at hdirty
      exact Fixpoint.mem_passSchedule x root hdirty

/-- The largest number of 32 bits, in cards of 65536 numbers: its card is cleaned and marked again. -/
theorem cardTable_exact_wordMax :
    65536 ≤ wordMax ∧
    (∀ number, Touch.mark number ∈ [.clear 65535, .clear 3, .mark wordMax, .clear 65536] → number ≤ wordMax) ∧
    (covering wordMax).cardOf 65536 ≤ (covering wordMax).cardOf wordMax ∧
    (covering wordMax).cardOf wordMax < (covering wordMax).count ∧
    (after wordMax [.clear 65535, .clear 3, .mark wordMax, .clear 65536]).isDirty 65535 = true ∧
    (after wordMax [.clear 65535, .clear 3, .mark wordMax, .clear 65536]).isDirty 3 = false ∧
    (after wordMax [.clear 65535, .clear 3, .mark wordMax, .clear 65536]).dirtyCount = 65535 := by
  have hbits : bitsFor wordMax = 16 := by decide
  have hcount : (covering wordMax).count = 65536 := by
    rw [count_covering, hbits]
    rfl
  have htouches : ∀ number, Touch.mark number ∈ [.clear 65535, .clear 3, .mark wordMax, .clear 65536] →
      number ≤ wordMax := by
    simp
  have hset : dirtyAfter wordMax [.clear 65535, .clear 3, .mark wordMax, .clear 65536] =
      (Finset.range 65536).erase 3 := by
    unfold dirtyAfter
    rw [hcount, hbits]
    ext c
    have htop : wordMax >>> 16 = 65535 := rfl
    simp only [List.foldl_cons, List.foldl_nil, Touch.onSet, htop, Finset.mem_erase, Finset.mem_insert,
      Finset.mem_range]
    omega
  obtain ⟨-, -, hnumbers, hafter⟩ := cardTable_exact wordMax
  obtain ⟨-, hlt, hmono, -⟩ := hnumbers wordMax (Nat.le_refl _)
  obtain ⟨hdirty, -, -, hall, -⟩ := hafter _ htouches
  rw [hset] at hall hdirty
  refine ⟨by decide, htouches, hmono 65536 (by decide), hlt, ?_, ?_, ?_⟩
  · exact (hdirty 65535).mpr (by simp)
  · rw [← Bool.not_eq_true, hdirty 3]
    simp
  · rw [hall, Finset.card_erase_of_mem (by simp), Finset.card_range]

end CardTable
end HeapRetention
