import HeapRetention.Proofs.ForestGrowth

/-! Every walk ends. A wave that leads to another one has visited something, and no object is visited twice,
so the turns that a walk is given are enough. When it ends no edge waits any more: each phase takes its queue
over as a whole, and later visits put edges off to later phases only. -/
namespace HeapRetention

/-- Without a limit to its patience a caller never stops anything. -/
theorem Journal.poll_fraction {j : Journal} (hj : j.patience? = none) (slices : List Slice) (f : Float) :
    (j.fraction slices f).poll.1 = false := by
  have hpatience : (j.fraction slices f).patience? = none := hj
  simp only [poll, hpatience]

namespace Walk
variable {t : Terrain} {fresh : Run} {w : Walk} {segment : Phase → List ObjectId}
  {next rest held : List ObjectId} {id : ObjectId}

theorem visit_progress (t : Terrain) (w : Walk) (next : List ObjectId) (id : ObjectId) :
    (w.visit t next id).1.phase = w.phase ∧ (w.visit t next id).1.visitedCount = w.visitedCount + 1 := by
  obtain ⟨q, nominated, summary, heq, -⟩ := visit_eq t w next id
  rw [heq]
  exact ⟨rfl, rfl⟩

theorem passOver_progress (t : Terrain) (w : Walk) (id : ObjectId) :
    (w.passOver t id).phase = w.phase ∧ (w.passOver t id).visitedCount = w.visitedCount := by
  unfold passOver
  split
  · exact ⟨rfl, rfl⟩
  · split <;> exact ⟨rfl, rfl⟩

/-- Only visits open objects, so a wave that opens some has visited some. -/
theorem visitAll_progress (t : Terrain) (w : Walk) (next ids : List ObjectId) :
    (visitAll t w next ids).1.phase = w.phase ∧ w.visitedCount ≤ (visitAll t w next ids).1.visitedCount ∧
      ((visitAll t w next ids).2 = next ∨ w.visitedCount < (visitAll t w next ids).1.visitedCount) := by
  induction ids generalizing w next with
  | nil => exact ⟨rfl, Nat.le_refl _, Or.inl rfl⟩
  | cons id ids ih =>
    rw [visitAll]
    split
    · obtain ⟨hphase, hcount⟩ := passOver_progress t w id
      have hrest := ih (w.passOver t id) next
      rwa [hphase, hcount] at hrest
    · split
      · exact ⟨rfl, Nat.le_refl _, Or.inl rfl⟩
      · obtain ⟨hphase, hcount⟩ := visit_progress t w next id
        obtain ⟨hrest, hle, -⟩ := ih (w.visit t next id).1 (w.visit t next id).2
        rw [hcount] at hle
        exact ⟨hrest.trans hphase, Nat.le_of_succ_le hle, Or.inr hle⟩

theorem advance_progress (t : Terrain) (w : Walk) :
    (w.advance t).phase = w.phase.next ∧ (w.advance t).visitedCount = w.visitedCount ∧
      (w.advance t).queues = w.queues.replace w.phase.next [] := by
  obtain ⟨run, roots, -, heq⟩ := releaseAll_eq t w.entering [] (w.queues.pending w.phase.next)
  rw [advance_eq, heq]
  exact ⟨rfl, rfl, rfl⟩

/-- No edge waits for a phase that has begun. -/
def Drained (w : Walk) : Prop :=
  ∀ Q, Q ≤ w.phase → w.queues.pending Q = []

theorem Drained.visit (h : w.Drained) : (w.visit t next id).1.Drained := by
  obtain ⟨q, nominated, summary, heq, hpending, -⟩ := visit_eq t w next id
  intro Q hQ
  rw [heq] at hQ ⊢
  have hnone : t.deferred w.run.isValid w.phase id Q = [] := by
    apply List.eq_nil_iff_forall_not_mem.mpr
    intro e he
    obtain ⟨r, v, -, -, -, hlt, -⟩ := Terrain.mem_deferred_iff.mp he
    exact absurd hlt (Phase.not_lt.mpr hQ)
  exact (hpending Q).trans (by rw [h Q hQ, hnone, List.append_nil])

theorem Drained.passOver (h : w.Drained) (hpass : t.passesOver w.phase id = true) :
    (w.passOver t id).Drained := by
  unfold Walk.passOver
  split
  · exact h
  · next hsent =>
    split
    · exact h
    · intro Q hQ
      have hQ : Q ≤ w.phase := hQ
      have hbefore : w.phase < .cleanupReferences := by
        rcases Terrain.passesOver_iff.mp hpass with hs | ⟨hlt, -⟩
        · exact absurd hs hsent
        · exact hlt
      have hne : Q ≠ .cleanupReferences := by
        intro he
        exact absurd hbefore (Phase.not_lt.mpr (he ▸ hQ))
      rw [PhaseQueues.pending_defer, if_neg hne]
      exact h Q hQ

theorem Drained.advance (h : w.Drained) (hP : w.phase ≠ .finished) : (w.advance t).Drained := by
  obtain ⟨hphase, -, hqueues⟩ := advance_progress t w
  intro Q hQ
  have hpending : (w.queues.replace w.phase.next []).pending Q = _ := w.queues.pending_advance w.phase Q
  rw [hqueues, hpending]
  rw [hphase] at hQ
  split
  · rfl
  · next hne =>
    apply h
    rcases Phase.lt_or_eq hQ with hlt | heq
    · exact (Phase.lt_next_iff hP).mp hlt
    · exact absurd heq hne

/-- In the end no edge is left behind. -/
theorem Drained.isEmpty (h : w.Drained) (hend : w.phase = .finished) : w.queues.isEmpty = true := by
  have hnil : ∀ Q, w.queues.latestFirst Q = [] := by
    intro Q
    have hpending := h Q (hend ▸ Phase.le_finished Q)
    exact List.reverse_eq_nil_iff.mp hpending
  unfold PhaseQueues.isEmpty
  simp only [show w.queues.strongNonLocal = [] from hnil .strongNonLocal,
    show w.queues.strongLocal = [] from hnil .strongLocal,
    show w.queues.syntheticTree = [] from hnil .syntheticTree,
    show w.queues.soft = [] from hnil .soft, show w.queues.weak = [] from hnil .weak,
    show w.queues.cleanupReferences = [] from hnil .cleanupReferences,
    show w.queues.finished = [] from hnil .finished, List.isEmpty_nil, Bool.and_self]

end Walk

end HeapRetention
