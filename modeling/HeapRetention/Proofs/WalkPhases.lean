import HeapRetention.Proofs.WalkVisits

/-! From one phase to the next. A phase ends when nothing is open, and then it has visited exactly what it
reaches; the next one releases what waited for it, which opens all that it reaches in one step from there. -/
namespace HeapRetention

section
variable {t : Terrain} {fresh run run' : Run} {P Q : Phase} {queues : PhaseQueues}
  {segment : Phase → List ObjectId} {seen held : List ObjectId} {id v : ObjectId}

theorem Visits.same {visitedCount strongVisited : Nat} {strong : Tally}
    (h : Visits t fresh run visitedCount strong strongVisited segment) (hsame : run.SameVisits run') :
    Visits t fresh run' visitedCount strong strongVisited segment := by
  obtain ⟨parents, roles, rfl⟩ := hsame
  exact ⟨⟨h.heap.config, h.heap.objectCount, h.heap.tree⟩, h.capacity_visited, h.capacity_sizes, h.order,
    h.sizes, h.strong, h.strongVisited⟩

/-- What was promised to come by phase `Q` is claimed once the next phase has released its queue, or still
waits. -/
theorem Promised.enter {count : Nat} (h : Promised run P queues Q v) (hP : P ≠ .finished)
    (hv : InHeap count v)
    (hiff : ∀ v, run'.IsClaimed v ↔ run.IsClaimed v ∨
      ((∃ e ∈ queues.pending P.next, e.target = v) ∧ InHeap count v)) :
    Promised run' P.next (queues.replace P.next []) Q v := by
  rcases h with hc | ⟨R, hlt, hle, e, he, hev⟩
  · exact Or.inl ((hiff v).mpr (Or.inl hc))
  · rcases Phase.lt_or_eq ((Phase.next_le_iff hP).mpr hlt) with hlater | rfl
    · have hne : R ≠ P.next := fun heq => Nat.lt_irrefl R.rank (heq ▸ hlater)
      refine Or.inr ⟨R, hlater, hle, e, ?_, hev⟩
      unfold PhaseQueues.pending
      rwa [PhaseQueues.latestFirst_replace, if_neg hne]
    · exact Or.inl ((hiff v).mpr (Or.inr ⟨⟨e, he, hev⟩, hv⟩))

/-- Only the phase of the sentinel spares less than the one before it. -/
theorem Terrain.Spared.next (h : t.Spared P id) (hP : P ≠ .finished) (hs : P.next ≠ .syntheticTree) :
    t.Spared P.next id := by
  rcases h with ⟨he, hlt⟩ | hm
  · rcases Phase.lt_or_eq ((Phase.next_le_iff hP).mpr hlt) with hlt' | heq
    · exact Or.inl ⟨he, hlt'⟩
    · exact absurd heq hs
  · exact Or.inr hm

/-- What is held back, once a phase has released its queue. -/
def Phase.stillHeld (P : Phase) (held : List ObjectId) : List ObjectId :=
  if P = .cleanupReferences then [] else held

theorem Queued.enter (h : Queued t fresh.objectCount run P queues seen held) (hP : P ≠ .finished)
    (hiff : ∀ v, run'.IsClaimed v ↔ run.IsClaimed v ∨
      ((∃ e ∈ queues.pending P.next, e.target = v) ∧ InHeap fresh.objectCount v)) :
    Queued t fresh.objectCount run' P.next (queues.replace P.next []) seen (P.next.stillHeld held) := by
  have hpending : ∀ Q, (queues.replace P.next []).pending Q =
      if Q = P.next then [] else queues.pending Q := by
    intro Q
    unfold PhaseQueues.pending
    rw [PhaseQueues.latestFirst_replace]
    split <;> rfl
  have hsub : ∀ Q e, e ∈ (queues.replace P.next []).pending Q → e ∈ queues.pending Q := by
    intro Q e he
    rw [hpending] at he
    split at he
    · exact absurd he List.not_mem_nil
    · exact he
  have hbefore : ∀ Q, P.next < Q → P < Q := fun Q hQ => Nat.lt_trans (Phase.lt_next hP) hQ
  exact {
    sentinel := fun hlt => by
      have hne : Phase.syntheticTree ≠ P.next := fun he => Nat.lt_irrefl P.next.rank (he ▸ hlt)
      rw [hpending, if_neg hne]
      exact h.sentinel (Nat.lt_trans (Phase.lt_next hP) hlt)
    cleanup := by
      rw [hpending]
      unfold Phase.stillHeld
      by_cases hc : P.next = .cleanupReferences
      · rw [if_pos hc.symm, if_pos hc]
        rfl
      · rw [if_neg fun he => hc he.symm, if_neg hc]
        exact h.cleanup
    claims := fun Q hQ hne hne' e he => h.claims Q (hbefore Q hQ) hne hne' e (hsub Q e he)
    sound := fun Q hQ e he hin => h.sound Q (hbefore Q hQ) e (hsub Q e he) hin
    strongOnly := fun honly Q hQ => by
      rw [hpending, h.strongOnly honly Q hQ, ite_self]
    seeds := fun Q hQ v hv hs => by
      exact (h.seeds Q (Phase.le_of_lt ((Phase.next_le_iff hP).mp hQ)) v hv hs).enter hP hv hiff
    edges := fun Q hQ u hu v hv he => by
      exact (h.edges Q (Phase.le_of_lt ((Phase.next_le_iff hP).mp hQ)) u hu v hv he).enter hP hv hiff }

end

namespace Walk
variable {t : Terrain} {fresh : Run} {w : Walk} {segment : Phase → List ObjectId}
  {next held : List ObjectId} {id : ObjectId}

/-- The state after a phase has released its queue, whatever its ledger. -/
theorem Inv.enter (h : Inv t fresh w segment [] held) (hP : w.phase ≠ .finished) {run : Run}
    (hsame : w.run.SameVisits run)
    (hiff : ∀ v, run.IsClaimed v ↔ w.run.IsClaimed v ∨
      ((∃ e ∈ w.queues.pending w.phase.next, e.target = v) ∧ InHeap fresh.objectCount v))
    (hledger : Ledger run fresh.objectCount (Phase.gather segment) next (w.phase.next.stillHeld held)
      (t.Spared w.phase.next))
    (honly : t.options.onlyStrongReferences = true → .syntheticTree < w.phase.next → next = [])
    {roots : List ObjectId} (hrooted : Rooted t fresh.objectCount w.phase.next roots)
    (frontier : List ObjectId) :
    Inv t fresh { w with
      run := run
      phase := w.phase.next
      queues := w.queues.replace w.phase.next []
      frontier := frontier
      roots := roots } segment next (w.phase.next.stillHeld held) := by
  have hlt := Phase.lt_next hP
  exact {
    crash := h.crash
    visits := h.visits.same hsame
    ledger := hledger
    queued := h.queued.enter hP hiff
    rooted := hrooted
    justified := fun v hv => by
      rcases (hiff v).mp hv with hold | ⟨⟨e, he, rfl⟩, hin⟩
      · exact (h.justified v hold).mono (Phase.le_of_lt hlt)
      · exact h.queued.sound _ hlt e he hin
    admitted := fun v hv => (h.admitted v hv).mono (Phase.le_of_lt hlt)
    later := fun Q hQ => h.later Q (Nat.lt_trans hlt hQ)
    layers := fun Q hQ v => by
      -- the phase that ends is exact, and no later one has visited anything yet
      rcases Phase.lt_or_eq ((Phase.lt_next_iff hP).mp hQ) with hbefore | rfl
      · exact h.layers Q hbefore v
      · rw [← h.mem_iff_reach, Phase.mem_gather]
        refine exists_congr fun R => and_iff_right_of_imp fun hR => ?_
        refine Phase.not_lt.mp fun hlater => ?_
        rw [h.later R hlater] at hR
        exact List.not_mem_nil hR
    markers := fun v hv => by
      unfold Phase.stillHeld at hv
      split at hv
      · exact absurd hv List.not_mem_nil
      · next hne =>
        obtain ⟨hm, hbefore, hs⟩ := h.markers v hv
        refine ⟨hm, ?_, fun he => Phase.le_trans (hs he) (Phase.le_of_lt hlt)⟩
        rcases Phase.lt_or_eq ((Phase.next_le_iff hP).mpr hbefore) with hlt' | heq
        · exact hlt'
        · exact absurd heq hne
    strongOnly := honly }

/-- Only the phase of the sentinel has something to say about roots. -/
theorem Inv.rooted_next (h : Inv t fresh w segment [] held) (hP : w.phase ≠ .finished)
    (hs : w.phase.next ≠ .syntheticTree) : Rooted t fresh.objectCount w.phase.next w.roots := by
  refine { h.rooted with sentinel := fun hle => h.rooted.sentinel ?_ }
  rcases Phase.lt_or_eq hle with hlt | heq
  · exact (Phase.lt_next_iff hP).mp hlt
  · exact absurd heq.symm hs

/-- A walk that has left its phase and taken the queue of the next one, before it releases the queue. -/
def entering (w : Walk) : Walk :=
  { w with
    phase := w.phase.next
    queues := w.queues.replace w.phase.next [] }

theorem advance_eq (t : Terrain) (w : Walk) :
    w.advance t = { (releaseAll t w.entering [] (w.queues.pending w.phase.next)).1 with
      frontier := (releaseAll t w.entering [] (w.queues.pending w.phase.next)).2.reverse } :=
  rfl

theorem Inv.releaseClaims (h : Inv t fresh w segment [] held) (hP : w.phase ≠ .finished)
    (hs : w.phase.next ≠ .syntheticTree) (hc : w.phase.next ≠ .cleanupReferences) :
    ∃ held', Inv t fresh (w.advance t) segment (w.advance t).frontier held' := by
  have hclaims := h.queued.claims _ (Phase.lt_next hP) hs hc
  have hheld : w.phase.next.stillHeld held = held := if_neg hc
  have hledger : Ledger w.entering.run fresh.objectCount (Phase.gather segment) []
      (w.phase.next.stillHeld held) (t.Spared w.phase.next) := by
    rw [hheld]
    exact h.ledger.respare fun _ _ hspared => hspared.next hP hs
  obtain ⟨hl, hiff, run, hsame, heq⟩ := releaseAll_ledger (t := t) hclaims hledger
  have honly : t.options.onlyStrongReferences = true → .syntheticTree < w.phase.next →
      (releaseAll t w.entering [] (w.queues.pending w.phase.next)).2.reverse = [] := by
    intro honly hlt
    rw [h.queued.strongOnly honly _ hlt]
    rfl
  have hl' := hl.perm (List.reverse_perm _).symm
  rw [heq] at hl' hiff
  refine ⟨w.phase.next.stillHeld held, ?_⟩
  rw [advance_eq, heq]
  exact h.enter hP hsame hiff hl' honly (h.rooted_next hP hs) _

theorem Inv.releaseHeld (h : Inv t fresh w segment [] held) (hP : w.phase ≠ .finished)
    (hc : w.phase.next = .cleanupReferences) :
    ∃ held', Inv t fresh (w.advance t) segment (w.advance t).frontier held' := by
  have hqueue : w.queues.pending w.phase.next = held.map .revisit := by
    rw [hc, h.queued.cleanup]
  have hall : ∀ id ∈ held, w.run.IsClaimed id := fun id hid =>
    h.ledger.claimed id (List.mem_append_right _ (List.mem_append_right _ hid))
  have hrelease : releaseAll t w.entering [] (held.map .revisit) = (w.entering, held.reverse ++ []) :=
    releaseAll_revisit hall
  have hheld : w.phase.next.stillHeld held = [] := if_pos hc
  have hiff : ∀ v, w.run.IsClaimed v ↔ w.run.IsClaimed v ∨
      ((∃ e ∈ w.queues.pending w.phase.next, e.target = v) ∧ InHeap fresh.objectCount v) := by
    intro v
    refine (or_iff_left_of_imp ?_).symm
    rintro ⟨⟨e, he, rfl⟩, -⟩
    rw [hqueue] at he
    obtain ⟨id, hid, rfl⟩ := List.mem_map.mp he
    exact hall id hid
  have hs : w.phase.next ≠ .syntheticTree := by
    rw [hc]
    decide
  have hledger : Ledger w.run fresh.objectCount (Phase.gather segment) held
      (w.phase.next.stillHeld held) (t.Spared w.phase.next) := by
    rw [hheld]
    have hmoved : Ledger w.run fresh.objectCount (Phase.gather segment) held [] (t.Spared w.phase) :=
      h.ledger.move (by rw [List.append_nil]; exact .refl _)
    exact hmoved.respare fun _ _ hspared => hspared.next hP hs
  have honly : t.options.onlyStrongReferences = true → .syntheticTree < w.phase.next → held = [] := by
    intro honly hlt
    have hnil := h.queued.strongOnly honly _ hlt
    rw [hqueue] at hnil
    exact List.map_eq_nil_iff.mp hnil
  refine ⟨w.phase.next.stillHeld held, ?_⟩
  rw [advance_eq, hqueue, hrelease, List.append_nil, List.reverse_reverse]
  exact h.enter hP (.refl _) hiff hledger honly (h.rooted_next hP hs) held

/-- What an unclaimed sentinel leaves of the ledger: nothing was spared on its account. -/
theorem Inv.ledger_unclaimed (h : Inv t fresh w segment [] held)
    (hclaimed : ¬w.run.IsClaimed t.sentinel) :
    Ledger w.run fresh.objectCount (Phase.gather segment) [] held (t.Spared .syntheticTree) := by
  refine h.ledger.respare fun v hv hspared => ?_
  rcases hspared with ⟨rfl, -⟩ | hm
  · exact absurd hv hclaimed
  · exact Or.inr hm

section
variable (h : Inv t fresh w segment [] held) (hP : w.phase ≠ .finished) (hs : w.phase.next = .syntheticTree)
include h hP hs

/-- Nothing but the sentinel waits for its phase. -/
theorem Inv.sentinel_queue :
    w.queues.pending w.phase.next = if t.sentinel = 0 then [] else [.revisit t.sentinel] := by
  have hbefore : w.phase < .syntheticTree := hs ▸ Phase.lt_next hP
  rw [hs]
  exact h.queued.sentinel hbefore

theorem Inv.eq_sentinel {v : ObjectId} (hv : ∃ e ∈ w.queues.pending w.phase.next, e.target = v) :
    v = t.sentinel := by
  obtain ⟨e, he, rfl⟩ := hv
  rw [h.sentinel_queue hP hs] at he
  split at he
  · exact absurd he List.not_mem_nil
  · rw [List.mem_singleton.mp he]
    rfl

/-- The state after the sentinel was released, whatever became of it. -/
theorem Inv.enterSentinel {run : Run} {roots : List ObjectId} (hsame : w.run.SameVisits run)
    (hiff : ∀ v, run.IsClaimed v ↔ w.run.IsClaimed v ∨
      ((∃ e ∈ w.queues.pending w.phase.next, e.target = v) ∧ InHeap fresh.objectCount v))
    (hledger : Ledger run fresh.objectCount (Phase.gather segment) next held (t.Spared .syntheticTree))
    (hrooted : Rooted t fresh.objectCount .syntheticTree roots) :
    Inv t fresh { w.entering with
      run := run
      frontier := next
      roots := roots } segment next held := by
  have hheld : w.phase.next.stillHeld held = held := if_neg (by rw [hs]; decide)
  have honly : t.options.onlyStrongReferences = true → .syntheticTree < w.phase.next → next = [] := by
    intro _ hlt
    rw [hs] at hlt
    exact absurd hlt (by decide)
  rw [← hs] at hledger hrooted
  rw [← hheld] at hledger
  have hdone := h.enter hP hsame hiff hledger honly hrooted next
  rw [hheld] at hdone
  exact hdone

/-- A sentinel that was claimed ahead of its phase is spared no longer: it counts as open. -/
theorem Inv.ledger_reopened (hclaimed : w.run.IsClaimed t.sentinel) :
    Ledger w.run fresh.objectCount (Phase.gather segment) [t.sentinel] held
      (t.Spared .syntheticTree) := by
  have hbefore : w.phase < .syntheticTree := hs ▸ Phase.lt_next hP
  have hnew : t.sentinel ∉ Phase.gather segment ++ ([] ++ held) := by
    intro hin
    rcases List.mem_append.mp hin with hin | hin
    · exact absurd hbefore (Phase.not_lt.mpr ((h.admitted _ hin).sentinel rfl))
    · exact absurd hbefore (Phase.not_lt.mpr ((h.markers _ hin).2.2 rfl))
  have hperm : (Phase.gather segment ++ ([t.sentinel] ++ held)).Perm
      (t.sentinel :: (Phase.gather segment ++ ([] ++ held))) := List.perm_middle
  exact {
    objectCount := h.ledger.objectCount
    capacity := h.ledger.capacity
    nodup := hperm.nodup_iff.mpr (List.nodup_cons.mpr ⟨hnew, h.ledger.nodup⟩)
    claimed := fun v hv => by
      rcases List.mem_cons.mp (hperm.mem_iff.mp hv) with rfl | hv
      · exact hclaimed
      · exact h.ledger.claimed v hv
    covered := fun v hv => by
      rcases h.ledger.covered v hv with hin | ⟨rfl, -⟩ | hm
      · exact Or.inl (hperm.mem_iff.mpr (List.mem_cons_of_mem _ hin))
      · exact Or.inl (hperm.mem_iff.mpr List.mem_cons_self)
      · exact Or.inr (Or.inr hm) }

/-- Whoever claimed the sentinel was reached before its phase, or it is a seed of such a phase itself. -/
theorem Inv.rooted_reopened (hclaimed : w.run.IsClaimed t.sentinel) :
    Rooted t fresh.objectCount .syntheticTree w.roots := by
  have hbefore : w.phase < .syntheticTree := hs ▸ Phase.lt_next hP
  refine { h.rooted with sentinel := fun _ hin => ?_ }
  have hlocal : w.phase ≤ .strongLocal := by
    refine Phase.not_lt.mp fun hlt => ?_
    have hle := (Phase.next_le_iff (P := .strongLocal) (by decide)).mpr hlt
    exact absurd hbefore (Phase.not_lt.mpr hle)
  rcases (h.justified _ hclaimed).source with hseed | ⟨u, hu, he⟩
  · exact Or.inl (h.rooted.complete _ hin (hseed.mono hlocal))
  · exact Or.inr ⟨u, hu.mono hlocal, he.mono hlocal⟩

/-- Something has claimed the sentinel ahead of its phase: it is open from now on. -/
theorem Inv.reopenSentinel (hclaimed : w.run.IsClaimed t.sentinel) :
    Inv t fresh (w.advance t) segment (w.advance t).frontier held := by
  have hne : t.sentinel ≠ 0 := Nat.pos_iff_ne_zero.mp ((h.ledger.valid_iff _).mp hclaimed.1).1
  have hqueue : w.queues.pending w.phase.next = [t.sentinel].map .revisit := by
    rw [h.sentinel_queue hP hs, if_neg hne]
    rfl
  have hrelease : releaseAll t w.entering [] ([t.sentinel].map .revisit) = (w.entering, [t.sentinel] ++ []) :=
    releaseAll_revisit fun id hid => by rwa [List.mem_singleton.mp hid]
  have hiff : ∀ v, w.run.IsClaimed v ↔ w.run.IsClaimed v ∨
      ((∃ e ∈ w.queues.pending w.phase.next, e.target = v) ∧ InHeap fresh.objectCount v) :=
    fun v => (or_iff_left_of_imp fun hand => h.eq_sentinel hP hs hand.1 ▸ hclaimed).symm
  rw [advance_eq, hqueue, hrelease]
  exact h.enterSentinel hP hs (.refl _) hiff (h.ledger_reopened hP hs hclaimed)
    (h.rooted_reopened hP hs hclaimed)

/-- Nothing has claimed the sentinel: it becomes a root. -/
theorem Inv.claimSentinel (hu : w.run.isUnclaimed t.sentinel = true) :
    Inv t fresh (w.advance t) segment (w.advance t).frontier held := by
  obtain ⟨hvalid, hclaimed⟩ := (w.run.isUnclaimed_iff _).mp hu
  have hin := (h.ledger.valid_iff _).mp hvalid
  have hne : t.sentinel ≠ 0 := Nat.pos_iff_ne_zero.mp hin.1
  have hqueue : w.queues.pending w.phase.next = [.revisit t.sentinel] := by
    rw [h.sentinel_queue hP hs, if_neg hne]
  have hrelease : releaseAll t w.entering [] [.revisit t.sentinel] =
      ({ w.entering with
        run := w.run.claim t.sentinel t.sentinel
        roots := t.sentinel :: w.roots }, [t.sentinel]) := by
    have hu' : w.entering.run.isUnclaimed t.sentinel = true := hu
    have hvalid' : w.entering.run.isValid t.sentinel = true := hvalid
    unfold releaseAll release
    simp only [hvalid', hu', Bool.not_true, Bool.false_eq_true, if_false, if_true]
    rfl
  have hiff : ∀ v, (w.run.claim t.sentinel t.sentinel).IsClaimed v ↔ w.run.IsClaimed v ∨
      ((∃ e ∈ w.queues.pending w.phase.next, e.target = v) ∧ InHeap fresh.objectCount v) := by
    intro v
    rw [h.ledger.isClaimed_claim_iff hu hne, hqueue]
    simp only [List.mem_singleton, exists_eq_left]
    exact or_congr_right (and_congr_left fun _ => eq_comm)
  have hrooted : Rooted t fresh.objectCount .syntheticTree (t.sentinel :: w.roots) := by
    refine ⟨fun v hv => ?_, fun v hin hseed => List.mem_cons_of_mem _ (h.rooted.complete v hin hseed),
      fun _ _ => Or.inl List.mem_cons_self⟩
    rcases List.mem_cons.mp hv with rfl | hv
    · exact ⟨hin, .sentinel (Phase.le_refl _)⟩
    · exact h.rooted.seeds v hv
  have hledger := (h.ledger_unclaimed hclaimed).claim hu hne
  rw [advance_eq, hqueue, hrelease]
  exact h.enterSentinel hP hs ⟨_, _, rfl⟩ hiff hledger hrooted

/-- A sentinel that is no object of the run comes to nothing. -/
theorem Inv.dropSentinel (hvalid : ¬w.run.isValid t.sentinel = true) :
    Inv t fresh (w.advance t) segment (w.advance t).frontier held := by
  have hrelease : releaseAll t w.entering [] (w.queues.pending w.phase.next) = (w.entering, []) := by
    have hvalid' : ¬w.entering.run.isValid t.sentinel = true := hvalid
    rw [h.sentinel_queue hP hs]
    split
    · rfl
    · unfold releaseAll release
      simp only [Bool.not_eq_true] at hvalid'
      simp only [hvalid', Bool.not_false, if_true]
      rfl
  have hiff : ∀ v, w.run.IsClaimed v ↔ w.run.IsClaimed v ∨
      ((∃ e ∈ w.queues.pending w.phase.next, e.target = v) ∧ InHeap fresh.objectCount v) := by
    refine fun v => (or_iff_left_of_imp fun hand => ?_).symm
    exact absurd ((h.ledger.valid_iff _).mpr (h.eq_sentinel hP hs hand.1 ▸ hand.2)) hvalid
  have hrooted : Rooted t fresh.objectCount .syntheticTree w.roots :=
    { h.rooted with sentinel := fun _ hin => absurd ((h.ledger.valid_iff _).mpr hin) hvalid }
  have hledger := h.ledger_unclaimed fun hclaimed => hvalid hclaimed.1
  rw [advance_eq, hrelease]
  exact h.enterSentinel hP hs (.refl _) hiff hledger hrooted

theorem Inv.releaseSentinel : Inv t fresh (w.advance t) segment (w.advance t).frontier held := by
  by_cases hclaimed : w.run.IsClaimed t.sentinel
  · exact h.reopenSentinel hP hs hclaimed
  by_cases hvalid : w.run.isValid t.sentinel = true
  · exact h.claimSentinel hP hs ((w.run.isUnclaimed_iff _).mpr ⟨hvalid, hclaimed⟩)
  · exact h.dropSentinel hP hs hvalid

end

/-- A phase begins once nothing is open. -/
theorem Inv.advance (h : Inv t fresh w segment [] held) (hP : w.phase ≠ .finished) :
    ∃ held', Inv t fresh (w.advance t) segment (w.advance t).frontier held' := by
  by_cases hs : w.phase.next = .syntheticTree
  · exact ⟨held, h.releaseSentinel hP hs⟩
  by_cases hc : w.phase.next = .cleanupReferences
  · exact h.releaseHeld hP hc
  · exact h.releaseClaims hP hs hc

end Walk
end HeapRetention
