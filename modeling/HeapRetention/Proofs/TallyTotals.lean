import HeapRetention.Proofs.WalkEnds

/-! Histograms of a heap never overflow. A tally of `n` objects counts no more than `n` instances and no more
bytes than `n` full words; a heap has less than a full word of objects, and the square of that fits 64 bits. -/
namespace HeapRetention

namespace Tally
variable {s : Tally} {n m size : Nat}

/-- The totals of a tally stay within those of `n` objects. -/
structure Within (s : Tally) (n : Nat) : Prop where
  instances : total (s.counters.map (·.2.instances)) ≤ n
  bytes : total (s.counters.map (·.2.bytes)) ≤ n * wordMax

theorem within_empty (n : Nat) : ({} : Tally).Within n :=
  ⟨Nat.zero_le _, Nat.zero_le _⟩

theorem Within.mono (h : s.Within n) (hnm : n ≤ m) : s.Within m :=
  ⟨Nat.le_trans h.instances hnm, Nat.le_trans h.bytes (Nat.mul_le_mul_right wordMax hnm)⟩

/-- One more object adds one instance at most, and its bytes; a full counter takes in nothing more. -/
theorem total_bump (id : ClassId) (size : Nat) (counters : List (ClassId × Counter)) :
    total ((bump id size counters).map (·.2.instances)) ≤ total (counters.map (·.2.instances)) + 1 ∧
      total ((bump id size counters).map (·.2.bytes)) ≤ total (counters.map (·.2.bytes)) + size := by
  have hcounter : ∀ c : Counter, (c.add size).instances ≤ c.instances + 1 ∧
      (c.add size).bytes ≤ c.bytes + size :=
    fun c => ⟨Nat.min_le_left _ _, Nat.min_le_left _ _⟩
  induction counters with
  | nil =>
    have hfirst := hcounter {}
    simpa only [bump, List.map_cons, List.map_nil, total_cons, total_nil, Nat.add_zero, Nat.zero_add]
      using hfirst
  | cons p counters ih =>
    obtain ⟨k, c⟩ := p
    have hone := hcounter c
    unfold bump
    split <;> simp only [List.map_cons, total_cons] <;> omega

theorem Within.add (h : s.Within n) (id : ClassId) (hsize : size ≤ wordMax) :
    (s.add id size).Within (n + 1) := by
  obtain ⟨hinstances, hbytes⟩ := total_bump id size s.counters
  have hn := h.instances
  have hb := h.bytes
  constructor
  · calc total ((s.add id size).counters.map (·.2.instances))
        ≤ total (s.counters.map (·.2.instances)) + 1 := hinstances
      _ ≤ n + 1 := Nat.succ_le_succ hn
  · calc total ((s.add id size).counters.map (·.2.bytes))
        ≤ total (s.counters.map (·.2.bytes)) + size := hbytes
      _ ≤ n * wordMax + wordMax := Nat.add_le_add hb hsize
      _ = (n + 1) * wordMax := (Nat.succ_mul n wordMax).symm

end Tally

namespace Walk
variable {t : Terrain} {fresh : Run} {w : Walk} {next : List ObjectId} {id : ObjectId}

/-- The tallies of a walk count visits. -/
def Counted (w : Walk) : Prop :=
  w.strong.Within w.visitedCount ∧ w.nonStrong.Within w.visitedCount

theorem Counted.visit (h : w.Counted) : (w.visit t next id).1.Counted := by
  obtain ⟨q, nominated, summary, heq, -⟩ := visit_eq t w next id
  obtain ⟨hstrong, hnon⟩ := h
  have hsize := t.graph.sizeOf_le id
  rw [heq]
  -- a visit counts for one of the tallies, as its phase has it
  constructor
  · dsimp only
    split
    · exact hstrong.add _ hsize
    · exact hstrong.mono (Nat.le_succ _)
  · dsimp only
    split
    · exact hnon.mono (Nat.le_succ _)
    · exact hnon.add _ hsize

end Walk

end HeapRetention
