import HeapRetention.Proofs.CardScan
import Mathlib.Data.List.Infix

/-! The order in which the passes come to the nodes. What a visit makes of the idom list depends on that
list alone, so the list at any moment is the fold of the visits made so far; the cards only decide which
nodes come up. In the first pass every node does, from the largest one down. -/
namespace HeapRetention
namespace Fixpoint

/-- The idom list after a visit; neither the cards nor the counts have a say in it. -/
def visitIdoms (x : EdgeIndex) (root : Nat) (idoms : Slots) (node : Nat) : Slots :=
  ((⟨idoms, .covering root, {}⟩ : Fixpoint).visit x root node).idoms

/-- The idom list once some nodes were visited in order. -/
def idomsAfter (x : EdgeIndex) (root : Nat) (visits : List Nat) : Slots :=
  visits.foldl (visitIdoms x root) (start root).idoms

/-- The nodes of a card, the largest first. -/
def cardSchedule (f : Fixpoint) (card : Nat) : List Nat :=
  (List.range' (card * f.cards.cardSize) f.cards.cardSize).reverse

/-- The nodes that come up among the lowest `bits` cards of a chunk. -/
def chunkSchedule (x : EdgeIndex) (root index : Nat) (chunk : UInt64) : (bits : Nat) → Fixpoint → List Nat
  | 0, _ => []
  | bits + 1, f =>
    if chunk &&& CardTable.bit bits = 0 then
      chunkSchedule x root index chunk bits (f.save f.cards.cardSize)
    else
      f.cardSchedule (index * 64 + bits) ++
        chunkSchedule x root index chunk bits (f.visitCard x root (index * 64 + bits))

def chunksSchedule (x : EdgeIndex) (root : Nat) : (chunks : Nat) → Fixpoint → List Nat
  | 0, _ => []
  | index + 1, f =>
    if f.cards.chunk index = 0 then chunksSchedule x root index (f.save (f.cards.cardSize * 64))
    else
      chunkSchedule x root index (f.cards.chunk index) 64 f ++
        chunksSchedule x root index (visitChunk x root index (f.cards.chunk index) 64 f)

/-- The nodes that a pass comes to, in order. -/
def passSchedule (x : EdgeIndex) (root : Nat) (f : Fixpoint) : List Nat :=
  chunksSchedule x root f.cards.chunks.size { f with counts := {} }

/-- The schedules of all passes, the first pass first. -/
def schedules (x : EdgeIndex) (root : Nat) : (limit : Nat) → Fixpoint → List (List Nat)
  | 0, _ => []
  | limit + 1, f =>
    f.passSchedule x root ::
      if (f.pass x root).counts.changed = 0 then [] else schedules x root limit (f.pass x root)

variable {x : EdgeIndex} {root : Nat} {f : Fixpoint} {node : Nat}

theorem idoms_update (cards : CardTable) (counts : PassCounts) :
    (f.update x root node).idoms = ((⟨f.idoms, cards, counts⟩ : Fixpoint).update x root node).idoms := by
  simp only [update]
  cases x.incoming node with
  | nil => rfl
  | cons p rest =>
    dsimp only
    split <;> rfl

theorem idoms_visit (x : EdgeIndex) (root : Nat) (f : Fixpoint) (node : Nat) :
    (f.visit x root node).idoms = visitIdoms x root f.idoms node := by
  simp only [visitIdoms, visit]
  split
  · rfl
  · exact idoms_update _ _

theorem idoms_visitRange (base size : Nat) (f : Fixpoint) :
    (visitRange x root base size f).idoms =
      (List.range' base size).reverse.foldl (visitIdoms x root) f.idoms := by
  induction size generalizing f with
  | zero => rfl
  | succ size ih =>
    rw [visitRange, ih, idoms_visit, List.range'_1_concat, List.reverse_concat, List.foldl_cons]

theorem idoms_visitCard (f : Fixpoint) (card : Nat) :
    (f.visitCard x root card).idoms = (f.cardSchedule card).foldl (visitIdoms x root) f.idoms :=
  idoms_visitRange _ _ _

theorem idoms_visitChunk (index : Nat) (chunk : UInt64) (bits : Nat) (f : Fixpoint) :
    (visitChunk x root index chunk bits f).idoms =
      (chunkSchedule x root index chunk bits f).foldl (visitIdoms x root) f.idoms := by
  induction bits generalizing f with
  | zero => rfl
  | succ bits ih =>
    rw [visitChunk, chunkSchedule, ih]
    split
    · rfl
    · rw [List.foldl_append, idoms_visitCard]

theorem idoms_visitChunks (chunks : Nat) (f : Fixpoint) :
    (visitChunks x root chunks f).idoms =
      (chunksSchedule x root chunks f).foldl (visitIdoms x root) f.idoms := by
  induction chunks generalizing f with
  | zero => rfl
  | succ index ih =>
    rw [visitChunks, chunksSchedule]
    split
    · exact ih _
    · rw [ih, List.foldl_append, idoms_visitChunk]

theorem idoms_pass (f : Fixpoint) :
    (f.pass x root).idoms = (f.passSchedule x root).foldl (visitIdoms x root) f.idoms :=
  idoms_visitChunks _ _

/-- The passes together do the visits of their schedules, one after the other. -/
theorem idoms_solve (limit : Nat) (f : Fixpoint) :
    (solve x root limit f).1.idoms =
      (schedules x root limit f).flatten.foldl (visitIdoms x root) f.idoms := by
  induction limit generalizing f with
  | zero => rfl
  | succ limit ih =>
    rw [solve, schedules, List.flatten_cons, List.foldl_append, ← idoms_pass]
    split
    · rfl
    · exact ih _

/-- There is one schedule for each pass. -/
theorem length_schedules (limit : Nat) (f : Fixpoint) :
    (schedules x root limit f).length = (solve x root limit f).2.length := by
  induction limit generalizing f with
  | zero => rfl
  | succ limit ih =>
    rw [solve, schedules]
    split
    · rfl
    · exact congrArg (· + 1) (ih _)

theorem schedules_eq_cons (x : EdgeIndex) (root : Nat) (f : Fixpoint) {limit : Nat} (hlimit : 1 ≤ limit) :
    ∃ later, schedules x root limit f = f.passSchedule x root :: later := by
  obtain ⟨limit, rfl⟩ := Nat.exists_eq_succ_of_ne_zero (show limit ≠ 0 by omega)
  exact ⟨_, rfl⟩

/-- Visits from `top` down to `base` that leave out no node below the super root. -/
structure Sweeps (root base top : Nat) (nodes : List Nat) : Prop where
  descending : nodes.Pairwise (· > ·)
  bounds : ∀ n ∈ nodes, base ≤ n ∧ n < top
  complete : ∀ n, base ≤ n → n < top → n < root → n ∈ nodes

namespace Sweeps
variable {base mid top : Nat} {upper lower nodes : List Nat}

theorem append (hu : Sweeps root mid top upper) (hl : Sweeps root base mid lower) (hbase : base ≤ mid)
    (htop : mid ≤ top) : Sweeps root base top (upper ++ lower) where
  descending := by
    refine List.pairwise_append.mpr ⟨hu.descending, hl.descending, fun a ha b hb => ?_⟩
    have hmid := (hu.bounds a ha).1
    have hlow := (hl.bounds b hb).2
    omega
  bounds n hn := by
    rcases List.mem_append.mp hn with hn | hn
    · have := hu.bounds n hn
      omega
    · have := hl.bounds n hn
      omega
  complete n hn ht hr := by
    apply List.mem_append.mpr
    by_cases hlt : n < mid
    · exact Or.inr (hl.complete n hn hlt hr)
    · exact Or.inl (hu.complete n (by omega) ht hr)

/-- Beyond the super root there is nothing to visit. -/
theorem none (h : root ≤ base) : Sweeps root base top [] where
  descending := List.Pairwise.nil
  bounds := by simp
  complete := by
    intro n hn _ hr
    omega

theorem range' (root base size : Nat) : Sweeps root base (base + size) (List.range' base size).reverse where
  descending := List.pairwise_reverse.mpr List.pairwise_lt_range'
  bounds := by simp [List.mem_range'_1]
  complete := by
    intro n hn ht _
    simp [List.mem_range'_1, hn, ht]

/-- When a visit comes up, the visits made before have swept all larger nodes. -/
theorem before {n : Nat} (h : Sweeps root base top (upper ++ n :: lower)) : Sweeps root (n + 1) top upper := by
  obtain ⟨hupper, hlower, hcross⟩ := List.pairwise_append.mp h.descending
  have hnext := (List.pairwise_cons.mp hlower).1
  refine ⟨hupper, fun a ha => ?_, fun a hna hat har => ?_⟩
  · have hlt := (h.bounds a (List.mem_append_left _ ha)).2
    exact ⟨hcross a ha n List.mem_cons_self, hlt⟩
  · have hn := (h.bounds n (List.mem_append_right _ List.mem_cons_self)).1
    rcases List.mem_append.mp (h.complete a (by omega) hat har) with ha | ha
    · exact ha
    · rcases List.mem_cons.mp ha with rfl | ha
      · omega
      · have := hnext a ha
        omega

/-- The visits made when a sweep is looked at midway are a sweep as well. -/
theorem of_append (h : Sweeps root base top (upper ++ lower)) : ∃ mid, Sweeps root mid top upper := by
  cases lower with
  | nil =>
    rw [List.append_nil] at h
    exact ⟨base, h⟩
  | cons n lower => exact ⟨n + 1, h.before⟩

/-- The visit that comes first takes the largest node that is left. -/
theorem of_cons {n : Nat} (h : Sweeps root base top (n :: nodes)) :
    (∀ a, n < a → a < root → top ≤ a) ∧ Sweeps root base n nodes := by
  obtain ⟨hfirst, hrest⟩ := List.pairwise_cons.mp h.descending
  have hmem : ∀ a, base ≤ a → a < top → a < root → a = n ∨ a ∈ nodes :=
    fun a hb ht hr => List.mem_cons.mp (h.complete a hb ht hr)
  have hn := h.bounds n List.mem_cons_self
  constructor
  · intro a hna har
    by_contra hat
    rcases hmem a (by omega) (by omega) har with rfl | ha
    · omega
    · have := hfirst a ha
      omega
  · refine ⟨hrest, fun a ha => ?_, fun a hb hat har => ?_⟩
    · exact ⟨(h.bounds a (List.mem_cons_of_mem n ha)).1, hfirst a ha⟩
    · exact (hmem a hb (by omega) har).resolve_left (by omega)

end Sweeps

/-- A chunk whose cards are all set is swept without a gap; a card without its bit lies beyond the table,
and so do its nodes. -/
theorem sweeps_chunk {index count size : Nat} {chunk : UInt64} (hreach : root < count * size) (bits : Nat)
    (f : Fixpoint) (hsize : f.cards.cardSize = size)
    (hset : ∀ b < bits, index * 64 + b < count → CardTable.isSet chunk b = true) :
    Sweeps root (index * 64 * size) ((index * 64 + bits) * size)
      (chunkSchedule x root index chunk bits f) := by
  -- from the lowest bit up; the visits of the highest one come first
  induction bits generalizing f with
  | zero =>
    refine ⟨List.Pairwise.nil, by simp [chunkSchedule], fun n hn ht _ => ?_⟩
    rw [Nat.add_zero] at ht
    omega
  | succ bits ih =>
    have hset' : ∀ b < bits, index * 64 + b < count → CardTable.isSet chunk b = true :=
      fun b hb => hset b (by omega)
    have hlow : index * 64 * size ≤ (index * 64 + bits) * size := Nat.mul_le_mul_right size (by omega)
    have hcard : (index * 64 + (bits + 1)) * size = (index * 64 + bits) * size + size := by
      rw [← Nat.add_assoc, Nat.succ_mul]
    rw [chunkSchedule]
    split
    · next hclean =>
      have hout : count ≤ index * 64 + bits := by
        by_contra hin
        have htrue := hset bits (by omega) (by omega)
        rw [(CardTable.and_bit_eq_zero_iff chunk bits).mp hclean] at htrue
        exact Bool.noConfusion htrue
      have hbeyond : Sweeps root ((index * 64 + bits) * size) ((index * 64 + (bits + 1)) * size) [] :=
        .none (Nat.le_of_lt (Nat.lt_of_lt_of_le hreach (Nat.mul_le_mul_right size hout)))
      exact hbeyond.append (ih _ hsize hset') hlow (by omega)
    · have hrange := Sweeps.range' root ((index * 64 + bits) * size) size
      rw [← hcard] at hrange
      have hsize' : (f.visitCard x root (index * 64 + bits)).cards.cardSize = size := by
        rw [CardTable.cardSize, bits_visitCard, ← hsize, CardTable.cardSize]
      rw [cardSchedule, hsize]
      exact hrange.append (ih _ hsize' hset') hlow (by omega)

theorem sweeps_chunks {count size : Nat} (hreach : root < count * size) (chunks : Nat) (f : Fixpoint)
    (hsize : f.cards.cardSize = size)
    (hdirty : ∀ c < chunks * 64, c < count → f.cards.isDirty c = true) :
    Sweeps root 0 (chunks * 64 * size) (chunksSchedule x root chunks f) := by
  induction chunks generalizing f with
  | zero =>
    rw [Nat.zero_mul]
    exact ⟨List.Pairwise.nil, by simp [chunksSchedule], fun n _ ht _ => absurd ht (Nat.not_lt_zero n)⟩
  | succ index ih =>
    have hset : ∀ b < 64, index * 64 + b < count → CardTable.isSet (f.cards.chunk index) b = true :=
      fun b hb hin => CardTable.isSet_chunk hb (hdirty (index * 64 + b) (by omega) hin)
    have hbefore : ∀ c < index * 64, c < count → f.cards.isDirty c = true := fun c hc => hdirty c (by omega)
    have hlow : index * 64 * size ≤ (index + 1) * 64 * size := Nat.mul_le_mul_right size (by omega)
    rw [chunksSchedule]
    split
    · next hzero =>
      -- no card of the chunk is dirty, so none of them is in the table
      have hout : count ≤ index * 64 := by
        by_contra hin
        have htrue := hset 0 (by omega) (by omega)
        rw [hzero] at htrue
        exact Bool.noConfusion htrue
      have hbeyond : Sweeps root (index * 64 * size) ((index + 1) * 64 * size) [] :=
        .none (Nat.le_of_lt (Nat.lt_of_lt_of_le hreach (Nat.mul_le_mul_right size hout)))
      exact hbeyond.append (ih _ hsize hbefore) (Nat.zero_le _) hlow
    · have hchunk := sweeps_chunk (x := x) hreach 64 f hsize hset
      rw [show index * 64 + 64 = (index + 1) * 64 by omega] at hchunk
      have hsize' : (visitChunk x root index (f.cards.chunk index) 64 f).cards.cardSize = size := by
        rw [CardTable.cardSize, bits_visitChunk, ← hsize, CardTable.cardSize]
      refine hchunk.append (ih _ hsize' fun c hc hin => ?_) (Nat.zero_le _) hlow
      exact isDirty_visitChunk x root hc _ 64 f (hbefore c hc hin)

/-- The first pass leaves out no node. -/
theorem sweeps_first_pass (x : EdgeIndex) (root : Nat) :
    ∃ top, root ≤ top ∧ Sweeps root 0 top ((start root).passSchedule x root) := by
  have hreach := CardTable.lt_count_mul_cardSize root
  have hcount := Nat.mul_le_mul_right (CardTable.covering root).cardSize (CardTable.count_le_size_chunks root)
  refine ⟨_, Nat.le_of_lt (Nat.lt_of_lt_of_le hreach hcount), sweeps_chunks hreach _ _ rfl ?_⟩
  exact fun c _ hc => CardTable.isDirty_covering root c hc

end Fixpoint
end HeapRetention
