import HeapRetention.Proofs.WalkState
import Mathlib.Data.List.Perm.Subperm

/-! What a visit does to the state of a walk, and what passing an object over does. A visit claims the
targets of the edges of its phase and queues the edges of later ones; an object that is passed over is held
back for the cleanup phase or spared. -/
namespace HeapRetention

theorem Ledger.move {r : Run} {count : Nat} {seen opened held seen' opened' held' : List ObjectId}
    {spared : ObjectId → Prop} (h : Ledger r count seen opened held spared)
    (hp : (seen ++ (opened ++ held)).Perm (seen' ++ (opened' ++ held'))) :
    Ledger r count seen' opened' held' spared where
  objectCount := h.objectCount
  capacity := h.capacity
  nodup := hp.nodup_iff.mp h.nodup
  claimed := fun id hid => h.claimed id (hp.mem_iff.mpr hid)
  covered := fun id hid => (h.covered id hid).imp_left hp.mem_iff.mp

theorem Ledger.respare {r : Run} {count : Nat} {seen opened held : List ObjectId}
    {spared spared' : ObjectId → Prop} (h : Ledger r count seen opened held spared)
    (hs : ∀ id, r.IsClaimed id → spared id → spared' id) : Ledger r count seen opened held spared' :=
  { h with covered := fun id hid => (h.covered id hid).imp_right (hs id hid) }

/-- An object that is spared need not be open. -/
theorem Ledger.spare {r : Run} {count : Nat} {seen next rest held : List ObjectId}
    {spared : ObjectId → Prop} {id : ObjectId} (h : Ledger r count seen (next ++ id :: rest) held spared)
    (hs : spared id) : Ledger r count seen (next ++ rest) held spared := by
  have hperm : (seen ++ (next ++ id :: rest ++ held)).Perm (id :: (seen ++ (next ++ rest ++ held))) := by
    have hmiddle := @List.perm_middle _ id (seen ++ next) (rest ++ held)
    simp only [List.append_assoc, List.cons_append] at hmiddle ⊢
    exact hmiddle
  refine ⟨h.objectCount, h.capacity, (List.nodup_cons.mp (hperm.nodup_iff.mp h.nodup)).2,
    fun v hv => h.claimed v (hperm.mem_iff.mpr (List.mem_cons_of_mem id hv)), fun v hv => ?_⟩
  rcases h.covered v hv with hin | hin
  · rcases List.mem_cons.mp (hperm.mem_iff.mp hin) with rfl | hin
    · exact Or.inr hs
    · exact Or.inl hin
  · exact Or.inr hin

/-- No object is visited twice, so the visits fit the heap. -/
theorem Ledger.length_le {r : Run} {count : Nat} {seen opened held : List ObjectId}
    {spared : ObjectId → Prop} (h : Ledger r count seen opened held spared) :
    (seen ++ (opened ++ held)).length ≤ count := by
  have hsub : seen ++ (opened ++ held) ⊆ List.range' 1 count := by
    intro id hid
    obtain ⟨h0, hle⟩ := (h.valid_iff id).mp (h.claimed id hid).1
    exact List.mem_range'_1.mpr ⟨h0, by omega⟩
  have hle := (List.subperm_of_subset h.nodup hsub).length_le
  rwa [List.length_range'] at hle

theorem Terrain.passesOver_iff {t : Terrain} {P : Phase} {id : ObjectId} : t.passesOver P id = true ↔
    (id = t.sentinel ∧ P < .syntheticTree) ∨ (P < .cleanupReferences ∧ t.isCleanupMarker id = true) := by
  unfold passesOver
  rw [Bool.or_eq_true, Bool.and_eq_true, Bool.and_eq_true, beq_iff_eq, decide_eq_true_iff,
    decide_eq_true_iff]

namespace Walk
variable {t : Terrain} {fresh : Run} {w : Walk} {segment : Phase → List ObjectId}
  {next rest held : List ObjectId} {id : ObjectId}

theorem postpone_eq (t : Terrain) (w : Walk) (id : ObjectId) :
    ∃ q, w.postpone t id = { w with queues := q } ∧
      ∀ Q, q.pending Q = w.queues.pending Q ++ t.deferred w.run.isValid w.phase id Q := by
  unfold postpone Terrain.deferred
  cases t.postponedReferent? w.phase id with
  | none => exact ⟨w.queues, rfl, fun Q => (List.append_nil _).symm⟩
  | some p =>
    obtain ⟨phase, referent, role⟩ := p
    dsimp only
    by_cases h : t.options.onlyStrongReferences = false ∧ w.run.isValid referent = true
    · have hgo : (!t.options.onlyStrongReferences && w.run.isValid referent) = true := by
        rw [h.1, h.2]
        rfl
      refine ⟨_, if_pos hgo, fun Q => ?_⟩
      rw [PhaseQueues.pending_defer]
      by_cases hQ : Q = phase
      · rw [if_pos hQ, if_pos ⟨hQ, h⟩, hQ]
      · rw [if_neg hQ, if_neg fun hand => hQ hand.1, List.append_nil]
    · have hstop : ¬(!t.options.onlyStrongReferences && w.run.isValid referent) = true := by
        rw [Bool.and_eq_true, Bool.not_eq_true']
        exact h
      refine ⟨w.queues, if_neg hstop, fun Q => ?_⟩
      rw [if_neg fun hand => h hand.2, List.append_nil]

def claims (t : Terrain) (w : Walk) (id : ObjectId) : Claims :=
  let slots := t.followedSlots w.run.isValid w.phase id
  Claims.followAll id (t.graph.classes.isArray (t.graph.classOf id)) t.options.includeFieldInformation
    slots.length { run := w.run } (slots ++ (t.syntheticChildren? id).getD []) 0

theorem claims_ledger {count : Nat} {seen opened : List ObjectId} {spared : ObjectId → Prop}
    (h : Ledger w.run count seen opened held spared) (hid : id ≠ 0) :
    Ledger (w.claims t id).run count seen ((w.claims t id).claimed ++ opened) held spared ∧
      (∀ v, (w.claims t id).run.IsClaimed v ↔ w.run.IsClaimed v ∨
        (v ∈ t.followedSlots w.run.isValid w.phase id ++ (t.syntheticChildren? id).getD [] ∧
          InHeap count v)) ∧
      w.run.SameVisits (w.claims t id).run :=
  Claims.followAll_ledger (c := { run := w.run }) _ 0 h hid

theorem visit_eq (t : Terrain) (w : Walk) (next : List ObjectId) (id : ObjectId) :
    ∃ q nominated summary,
      w.visit t next id = ({ w with
        queues := q
        run := (w.claims t id).run.recordVisit w.visitedCount id (sizeInUnits (t.graph.sizeOf id))
        visitedCount := w.visitedCount + 1
        strong := if w.phase.isStrong then w.strong.add (t.graph.classOf id) (t.graph.sizeOf id) else w.strong
        nonStrong := if w.phase.isStrong then w.nonStrong
          else w.nonStrong.add (t.graph.classOf id) (t.graph.sizeOf id)
        nominated := nominated
        summary := summary }, (w.claims t id).claimed ++ next) ∧
      (∀ Q, q.pending Q = w.queues.pending Q ++ t.deferred w.run.isValid w.phase id Q) ∧
      summary.strongVisited = w.summary.strongVisited + if w.phase.isStrong then 1 else 0 := by
  obtain ⟨q, hq, hpending⟩ := postpone_eq t w id
  unfold visit
  rw [hq]
  refine ⟨q, _, _, rfl, hpending, ?_⟩
  have hcount : ∀ (s : TraversalSummary) (edges size : Nat) (leaf : Bool),
      (s.count w.phase edges size leaf).strongVisited =
        s.strongVisited + if w.phase.isStrong then 1 else 0 := by
    intro s edges size leaf
    unfold TraversalSummary.count
    cases w.phase <;> rfl
  rw [hcount]
  split <;> rfl

end Walk

section
variable {t : Terrain} {fresh run run' : Run} {P : Phase} {queues q : PhaseQueues}
  {segment : Phase → List ObjectId} {seen held : List ObjectId} {id : ObjectId}

theorem Visits.visitOrder_record {visitedCount strongVisited : Nat} {strong : Tally}
    (h : Visits t fresh run visitedCount strong strongVisited segment) (hsame : run.SameVisits run')
    (hroom : visitedCount < fresh.objectCount + 2) (id size : Nat) :
    (run'.recordVisit visitedCount id size).visitOrder (visitedCount + 1) = Phase.gather segment ++ [id] := by
  obtain ⟨parents, roles, rfl⟩ := hsame
  have hget : ∀ i, (run.visited.put visitedCount id).get i =
      if visitedCount = i then id else run.visited.get i := by
    intro i
    rw [Slots.get_put, h.capacity_visited]
    simp only [hroom, and_true]
  rw [← h.order]
  unfold Run.visitOrder
  rw [List.range_succ, List.map_append]
  refine congrArg₂ _ (List.map_congr_left fun i hi => ?_) ?_
  · have hne : visitedCount ≠ i := fun he => by
      rw [he, List.mem_range] at hi
      exact Nat.lt_irrefl i hi
    exact (hget i).trans (if_neg hne)
  · exact congrArg (fun v => [v]) ((hget visitedCount).trans (if_pos rfl))

/-- One more visit goes to the end of the segment of its phase. -/
theorem Visits.record {visitedCount strongVisited : Nat} {strong : Tally}
    (h : Visits t fresh run visitedCount strong strongVisited segment) (hsame : run.SameVisits run')
    (hid : InHeap fresh.objectCount id) (hroom : visitedCount < fresh.objectCount + 2)
    (hlater : ∀ Q, P < Q → segment Q = []) :
    Visits t fresh (run'.recordVisit visitedCount id (sizeInUnits (t.graph.sizeOf id))) (visitedCount + 1)
      (if P.isStrong then strong.add (t.graph.classOf id) (t.graph.sizeOf id) else strong)
      (strongVisited + if P.isStrong then 1 else 0) (Phase.extend segment P id) := by
  have horder := h.visitOrder_record hsame hroom id (sizeInUnits (t.graph.sizeOf id))
  obtain ⟨parents, roles, rfl⟩ := hsame
  exact {
    heap := ⟨h.heap.config, h.heap.objectCount, h.heap.tree⟩
    capacity_visited := (Slots.capacity_put _ _ _).trans h.capacity_visited
    capacity_sizes := (Slots.capacity_put _ _ _).trans h.capacity_sizes
    order := horder.trans (Phase.gather_extend hlater id).symm
    sizes := fun v => by
      have hmem : v ∈ Phase.gather (Phase.extend segment P id) ↔ v ∈ Phase.gather segment ∨ v = id := by
        rw [Phase.gather_extend hlater, List.mem_append, List.mem_singleton]
      have hlt : id < fresh.objectCount + 2 := Nat.lt_add_right 1 (Nat.lt_succ_of_le hid.2)
      change (run.sizes.put id _).get v = _
      rw [Slots.get_put, h.capacity_sizes]
      by_cases he : id = v
      · subst he
        rw [if_pos ⟨rfl, hlt⟩, if_pos (hmem.mpr (Or.inr rfl))]
      · have hne : v ≠ id := fun h => he h.symm
        rw [if_neg fun hand => he hand.1, h.sizes]
        simp only [hmem, hne, or_false]
    strong := by
      rw [Phase.gatherStrong_extend hlater, h.strong]
      split
      · rw [List.foldl_append]
        rfl
      · rfl
    strongVisited := by
      rw [Phase.gatherStrong_extend hlater, h.strongVisited]
      split
      · rw [List.length_append]
        rfl
      · rfl }

theorem Promised.mono {Q : Phase} {v : ObjectId} (h : Promised run P queues Q v)
    (hclaimed : ∀ v, run.IsClaimed v → run'.IsClaimed v)
    (hpending : ∀ Q, queues.pending Q ⊆ q.pending Q) : Promised run' P q Q v := by
  rcases h with hc | ⟨R, hlt, hle, e, he, hv⟩
  · exact Or.inl (hclaimed v hc)
  · exact Or.inr ⟨R, hlt, hle, e, hpending R he, hv⟩

theorem Queued.hold (h : Queued t fresh.objectCount run P queues seen held)
    (honly : ¬t.options.onlyStrongReferences = true)
    (hid : t.Candidate fresh.objectCount .cleanupReferences id) :
    Queued t fresh.objectCount run P (queues.defer .cleanupReferences (.revisit id)) seen (held ++ [id]) := by
  have hother : ∀ Q, Q ≠ .cleanupReferences →
      (queues.defer .cleanupReferences (.revisit id)).pending Q = queues.pending Q := by
    intro Q hne
    rw [PhaseQueues.pending_defer, if_neg hne]
  have hself : (queues.defer .cleanupReferences (.revisit id)).pending .cleanupReferences =
      queues.pending .cleanupReferences ++ [.revisit id] := by
    rw [PhaseQueues.pending_defer, if_pos rfl]
  have hsub : ∀ Q, queues.pending Q ⊆ (queues.defer .cleanupReferences (.revisit id)).pending Q := by
    intro Q e he
    by_cases hc : Q = .cleanupReferences
    · subst hc
      rw [hself]
      exact List.mem_append_left _ he
    · rwa [hother Q hc]
  exact {
    sentinel := fun hs => by
      rw [hother _ (by decide)]
      exact h.sentinel hs
    cleanup := by
      rw [hself, h.cleanup, List.map_append]
      rfl
    claims := fun Q hQ hne hne' => by
      rw [hother Q hne']
      exact h.claims Q hQ hne hne'
    sound := fun Q hQ e he hin => by
      by_cases hc : Q = .cleanupReferences
      · subst hc
        rw [hself] at he
        rcases List.mem_append.mp he with he | he
        · exact h.sound _ hQ e he hin
        · rw [List.mem_singleton.mp he]
          exact hid
      · rw [hother Q hc] at he
        exact h.sound Q hQ e he hin
    strongOnly := fun hyes => absurd hyes honly
    seeds := fun Q hQ v hv hs => (h.seeds Q hQ v hv hs).mono (fun _ => fun hc => hc) hsub
    edges := fun Q hQ u hu v hv he => (h.edges Q hQ u hu v hv he).mono (fun _ => fun hc => hc) hsub }

/-- The queues after a visit, which has claimed what its phase leads to. -/
theorem Queued.visit {isValid : ObjectId → Bool} (h : Queued t fresh.objectCount run P queues seen held)
    (hvalid : ∀ v, isValid v = true ↔ InHeap fresh.objectCount v)
    (hreach : t.Reach fresh.objectCount P id) (hclaimed : ∀ v, run.IsClaimed v → run'.IsClaimed v)
    (hedges : ∀ v, InHeap fresh.objectCount v → t.OutEdge P id v → run'.IsClaimed v)
    (hpending : ∀ Q, q.pending Q = queues.pending Q ++ t.deferred isValid P id Q) :
    Queued t fresh.objectCount run' P q (seen ++ [id]) held := by
  have hsub : ∀ Q, queues.pending Q ⊆ q.pending Q := by
    intro Q e he
    rw [hpending]
    exact List.mem_append_left _ he
  -- a visit puts nothing off but referents
  have hother : ∀ Q, (∀ s : ReferentStrength, s.phase ≠ Q) → q.pending Q = queues.pending Q := by
    intro Q hQ
    have hnil : t.deferred isValid P id Q = [] := by
      refine List.eq_nil_iff_forall_not_mem.mpr fun e he => ?_
      obtain ⟨r, -, -, -, -, -, hphase, -⟩ := Terrain.mem_deferred_iff.mp he
      exact hQ r.strength hphase
    rw [hpending, hnil, List.append_nil]
  exact {
    sentinel := fun hlt => by
      rw [hother .syntheticTree fun s => by cases s <;> decide]
      exact h.sentinel hlt
    cleanup := by
      rw [hother .cleanupReferences fun s => by cases s <;> decide]
      exact h.cleanup
    claims := fun Q hQ hne hne' e he => by
      rw [hpending] at he
      rcases List.mem_append.mp he with he | he
      · exact h.claims Q hQ hne hne' e he
      · obtain ⟨r, v, -, -, -, -, -, -, -, rfl⟩ := Terrain.mem_deferred_iff.mp he
        exact Nat.pos_iff_ne_zero.mp hreach.valid.1
    sound := fun Q hQ e he hin => by
      rw [hpending] at he
      rcases List.mem_append.mp he with he | he
      · exact h.sound Q hQ e he hin
      · obtain ⟨r, v, hr, -, hv, -, rfl, honly, -, rfl⟩ := Terrain.mem_deferred_iff.mp he
        exact ⟨hin, Or.inr ⟨id, hreach.mono (Phase.le_of_lt hQ), .referent hr hv (Phase.le_refl _) honly⟩⟩
    strongOnly := fun honly Q hQ => by
      rw [hpending, h.strongOnly honly Q hQ, List.nil_append, List.eq_nil_iff_forall_not_mem]
      intro e he
      obtain ⟨r, v, -, -, -, -, -, hno, -⟩ := Terrain.mem_deferred_iff.mp he
      exact absurd hno (by rw [honly]; decide)
    seeds := fun Q hQ v hv hs => (h.seeds Q hQ v hv hs).mono hclaimed hsub
    edges := fun Q hQ u hu v hv he => by
      rcases List.mem_append.mp hu with hu | hu
      · exact (h.edges Q hQ u hu v hv he).mono hclaimed hsub
      · rw [List.mem_singleton.mp hu] at he
        rcases he.now_or_deferred P ((hvalid v).mpr hv) (Nat.pos_iff_ne_zero.mp hv.1) with he | hlater
        · exact Or.inl (hedges v hv he)
        · obtain ⟨R, hlt, hle, e, hmem, hv⟩ := hlater
          refine Or.inr ⟨R, hlt, hle, e, ?_, hv⟩
          rw [hpending]
          exact List.mem_append_right _ hmem }

end

namespace Walk
variable {t : Terrain} {fresh : Run} {w : Walk} {segment : Phase → List ObjectId}
  {next rest held : List ObjectId} {id : ObjectId}

theorem Inv.claimed_of_open {opened : List ObjectId} (h : Inv t fresh w segment opened held)
    (hopen : id ∈ opened) : w.run.IsClaimed id :=
  h.ledger.claimed id (List.mem_append_right _ (List.mem_append_left held hopen))

theorem Inv.inHeap_of_open {opened : List ObjectId} (h : Inv t fresh w segment opened held)
    (hopen : id ∈ opened) : InHeap fresh.objectCount id :=
  (h.ledger.valid_iff id).mp (h.claimed_of_open hopen).1

theorem Inv.ne_zero_of_open {opened : List ObjectId} (h : Inv t fresh w segment opened held)
    (hopen : id ∈ opened) : id ≠ 0 :=
  Nat.pos_iff_ne_zero.mp (h.inHeap_of_open hopen).1

theorem Inv.isValid_eq {opened : List ObjectId} (h : Inv t fresh w segment opened held) :
    w.run.isValid = fresh.isValid := by
  funext v
  unfold Run.isValid
  rw [h.visits.heap.objectCount]

theorem Inv.visitedCount_le {opened : List ObjectId} (h : Inv t fresh w segment opened held) :
    w.visitedCount ≤ fresh.objectCount := by
  have hlen := congrArg List.length h.visits.order
  have hle := h.ledger.length_le
  rw [Run.visitOrder, List.length_map, List.length_range] at hlen
  rw [List.length_append] at hle
  omega

theorem Inv.visitedCount_lt {opened : List ObjectId} (h : Inv t fresh w segment opened held) :
    w.visitedCount < fresh.objectCount + 2 :=
  Nat.lt_add_right 1 (Nat.lt_succ_of_le h.visitedCount_le)

/-- There is always room in the list of visited objects. -/
theorem Inv.not_capacity_le {opened : List ObjectId} (h : Inv t fresh w segment opened held) :
    ¬w.run.visited.capacity ≤ w.visitedCount := by
  rw [h.visits.capacity_visited]
  exact Nat.not_le.mpr h.visitedCount_lt

/-- A visit puts its object behind those visited before. -/
theorem Inv.visitOrder_visit (h : Inv t fresh w segment (next ++ id :: rest) held) :
    (w.visit t next id).1.run.visitOrder (w.visit t next id).1.visitedCount =
      w.run.visitOrder w.visitedCount ++ [id] := by
  have hopen : id ∈ next ++ id :: rest := List.mem_append_right next List.mem_cons_self
  obtain ⟨-, -, hsame⟩ := claims_ledger (t := t) h.ledger (h.ne_zero_of_open hopen)
  obtain ⟨q, nominated, summary, heq, -⟩ := visit_eq t w next id
  rw [heq, h.visits.order]
  exact h.visits.visitOrder_record hsame h.visitedCount_lt id (sizeInUnits (t.graph.sizeOf id))

/-- With only strong references nothing is open beyond the strong phases. -/
theorem Inv.phase_le_of_strongOnly {opened : List ObjectId} (h : Inv t fresh w segment opened held)
    (hopen : id ∈ opened) (honly : t.options.onlyStrongReferences = true) : w.phase ≤ .syntheticTree := by
  refine Phase.not_lt.mp fun hlt => ?_
  rw [h.strongOnly honly hlt] at hopen
  exact absurd hopen List.not_mem_nil

/-- An open object that is not passed over is let in. -/
theorem Inv.admits_of_open {opened : List ObjectId} (h : Inv t fresh w segment opened held)
    (hopen : id ∈ opened) (hpass : ¬t.passesOver w.phase id = true) : t.Admits w.phase id := by
  rw [Terrain.passesOver_iff] at hpass
  refine ⟨fun hs => Phase.not_lt.mp fun hlt => hpass (Or.inl ⟨hs, hlt⟩), fun hm => ?_⟩
  have hge : ¬w.phase < .cleanupReferences := fun hlt => hpass (Or.inr ⟨hlt, hm⟩)
  refine ⟨Phase.not_lt.mp hge, ?_⟩
  rw [← Bool.not_eq_true]
  intro honly
  exact hge (Nat.lt_of_le_of_lt (h.phase_le_of_strongOnly hopen honly) (by decide))

/-- A visit to an open object that the phase lets in. -/
theorem Inv.visit (h : Inv t fresh w segment (next ++ id :: rest) held)
    (hpass : ¬t.passesOver w.phase id = true) :
    Inv t fresh (w.visit t next id).1 (Phase.extend segment w.phase id)
      ((w.visit t next id).2 ++ rest) held := by
  have hopen : id ∈ next ++ id :: rest := List.mem_append_right next List.mem_cons_self
  have hid := h.claimed_of_open hopen
  have hin := h.inHeap_of_open hopen
  have honly := h.phase_le_of_strongOnly hopen
  have hadmit := h.admits_of_open hopen hpass
  have hreach := (h.justified id hid).reach hadmit
  obtain ⟨hl, hiff, hsame⟩ := claims_ledger (t := t) h.ledger (h.ne_zero_of_open hopen)
  have hgrow : ∀ v, w.run.IsClaimed v → (w.claims t id).run.IsClaimed v :=
    fun v hv => (hiff v).mpr (Or.inl hv)
  have hfollow : ∀ v, InHeap fresh.objectCount v →
      (v ∈ t.followedSlots w.run.isValid w.phase id ++ (t.syntheticChildren? id).getD [] ↔
        t.OutEdge w.phase id v) := fun v hv =>
    Terrain.mem_followed_iff ((h.ledger.valid_iff v).mpr hv) (Nat.pos_iff_ne_zero.mp hv.1) honly
  obtain ⟨q, nominated, summary, heq, hpending, hcount⟩ := visit_eq t w next id
  have hperm : (Phase.gather segment ++ ((w.claims t id).claimed ++ (next ++ id :: rest) ++ held)).Perm
      ((Phase.gather segment ++ [id]) ++ ((w.claims t id).claimed ++ next ++ rest ++ held)) := by
    rw [List.append_assoc _ [id]]
    refine List.Perm.append_left _ ?_
    have hmiddle := @List.perm_middle _ id ((w.claims t id).claimed ++ next) (rest ++ held)
    simp only [List.append_assoc, List.cons_append, List.nil_append] at hmiddle ⊢
    exact hmiddle
  rw [heq]
  exact {
    crash := h.crash
    visits := by
      rw [hcount]
      exact h.visits.record hsame hin h.visitedCount_lt h.later
    ledger := by
      have hmoved := hl.move hperm
      rw [← Phase.gather_extend h.later] at hmoved
      exact ⟨hmoved.objectCount, hmoved.capacity, hmoved.nodup, hmoved.claimed, hmoved.covered⟩
    queued := by
      rw [Phase.gather_extend h.later]
      refine h.queued.visit h.ledger.valid_iff hreach hgrow (fun v hv he => ?_) hpending
      exact (hiff v).mpr (Or.inr ⟨(hfollow v hv).mpr he, hv⟩)
    rooted := h.rooted
    justified := fun v hv => by
      rcases (hiff v).mp hv with hold | ⟨hmem, hv⟩
      · exact h.justified v hold
      · exact ⟨hv, Or.inr ⟨id, hreach, (hfollow v hv).mp hmem⟩⟩
    admitted := fun v hv => by
      rw [Phase.gather_extend h.later] at hv
      rcases List.mem_append.mp hv with hv | hv
      · exact h.admitted v hv
      · exact List.mem_singleton.mp hv ▸ hadmit
    later := fun Q hQ => by
      have hne : Q ≠ w.phase := fun he => Nat.lt_irrefl w.phase.rank (he ▸ hQ)
      exact (if_neg hne).trans (h.later Q hQ)
    layers := fun Q hQ v => by
      rw [← h.layers Q hQ v]
      refine exists_congr fun R => and_congr_right fun hR => ?_
      have hne : R ≠ w.phase := by
        rintro rfl
        exact absurd hQ (Phase.not_lt.mpr hR)
      unfold Phase.extend
      rw [if_neg hne]
    markers := h.markers
    strongOnly := fun hyes hlt => absurd hlt (Phase.not_lt.mpr (honly hyes)) }

/-- An open object that the phase passes over is spared or held back. -/
theorem Inv.passOver (h : Inv t fresh w segment (next ++ id :: rest) held)
    (hpass : t.passesOver w.phase id = true) :
    ∃ held', Inv t fresh (w.passOver t id) segment (next ++ rest) held' := by
  have hmem : id ∈ Phase.gather segment ++ ((next ++ id :: rest) ++ held) :=
    List.mem_append_right _ (List.mem_append_left _ (List.mem_append_right next List.mem_cons_self))
  have hempty : t.options.onlyStrongReferences = true → .syntheticTree < w.phase → next ++ rest = [] := by
    intro honly hlt
    have hnil := h.strongOnly honly hlt
    exact absurd hnil (List.append_ne_nil_of_right_ne_nil next (List.cons_ne_nil id rest))
  have hspare : t.Spared w.phase id → Inv t fresh w segment (next ++ rest) held := fun hs =>
    { h with
      ledger := h.ledger.spare hs
      strongOnly := hempty }
  unfold Walk.passOver
  by_cases hsent : id = t.sentinel ∧ w.phase < .syntheticTree
  · rw [if_pos hsent]
    exact ⟨held, hspare (Or.inl hsent)⟩
  -- what is passed over and is not the sentinel ahead of its phase is a marker
  have hmarker : t.isCleanupMarker id = true ∧ w.phase < .cleanupReferences := by
    rcases Terrain.passesOver_iff.mp hpass with hs | ⟨hlt, hm⟩
    · exact absurd hs hsent
    · exact ⟨hm, hlt⟩
  rw [if_neg hsent]
  by_cases honly : t.options.onlyStrongReferences = true
  · rw [if_pos honly]
    exact ⟨held, hspare (Or.inr ⟨honly, hmarker.1⟩)⟩
  rw [if_neg honly]
  have hperm : (Phase.gather segment ++ (next ++ id :: rest ++ held)).Perm
      (Phase.gather segment ++ (next ++ rest ++ (held ++ [id]))) := by
    refine List.Perm.append_left _ ?_
    have hmiddle := @List.perm_middle _ id next (rest ++ held)
    have hlast := @List.perm_append_singleton _ id (next ++ (rest ++ held))
    simp only [List.append_assoc, List.cons_append] at hmiddle hlast ⊢
    exact hmiddle.trans hlast.symm
  have hcandidate := (h.justified id (h.ledger.claimed id hmem)).mono (Phase.le_of_lt hmarker.2)
  refine ⟨held ++ [id], { h with
    ledger := h.ledger.move hperm
    queued := h.queued.hold honly hcandidate
    markers := ?_
    strongOnly := hempty }⟩
  intro v hv
  rcases List.mem_append.mp hv with hv | hv
  · exact h.markers v hv
  · rw [List.mem_singleton.mp hv]
    exact ⟨hmarker.1, hmarker.2, fun hs => Phase.not_lt.mp fun hlt => hsent ⟨hs, hlt⟩⟩

/-- A property of walks that no step takes away as long as the state is sound. -/
structure Kept (t : Terrain) (fresh : Run) (P : Walk → Prop) : Prop where
  frontier : ∀ w : Walk, P w → ∀ ids, P { w with frontier := ids }
  visit : ∀ {w segment next id rest held}, Inv t fresh w segment (next ++ id :: rest) held →
    ¬t.passesOver w.phase id = true → P w → P (w.visit t next id).1
  passOver : ∀ {w segment next id rest held}, Inv t fresh w segment (next ++ id :: rest) held →
    t.passesOver w.phase id = true → P w → P (w.passOver t id)
  advance : ∀ {w segment held}, Inv t fresh w segment [] held → w.phase ≠ .finished → P w → P (w.advance t)

theorem kept_true : Kept t fresh fun _ => True :=
  ⟨fun _ h _ => h, fun _ _ h => h, fun _ _ h => h, fun _ _ h => h⟩

/-- A wave over some objects: each is visited or passed over, and nothing goes wrong. -/
theorem Inv.visitAll {P : Walk → Prop} (hk : Kept t fresh P) (h : Inv t fresh w segment (next ++ rest) held)
    (hp : P w) :
    ∃ segment' held', Inv t fresh (visitAll t w next rest).1 segment' (visitAll t w next rest).2 held' ∧
      P (visitAll t w next rest).1 := by
  induction rest generalizing w next segment held with
  | nil =>
    rw [List.append_nil] at h
    exact ⟨segment, held, h, hp⟩
  | cons id rest ih =>
    rw [Walk.visitAll]
    by_cases hpass : t.passesOver w.phase id = true
    · rw [if_pos hpass]
      obtain ⟨held', hover⟩ := h.passOver hpass
      exact ih hover (hk.passOver h hpass hp)
    · rw [if_neg hpass, if_neg h.not_capacity_le]
      exact ih (h.visit hpass) (hk.visit h hpass hp)

/-- The state says nothing about the frontier but that its objects are open. -/
theorem Inv.withFrontier {opened : List ObjectId} (h : Inv t fresh w segment opened held)
    (ids : List ObjectId) : Inv t fresh { w with frontier := ids } segment opened held :=
  ⟨h.crash, h.visits, h.ledger, h.queued, h.rooted, h.justified, h.admitted, h.later, h.layers, h.markers,
    h.strongOnly⟩

theorem Inv.reverse {opened : List ObjectId} (h : Inv t fresh w segment opened held) :
    Inv t fresh w segment opened.reverse held :=
  { h with
    ledger := h.ledger.perm (List.reverse_perm opened).symm
    strongOnly := fun honly hlt => List.reverse_eq_nil_iff.mpr (h.strongOnly honly hlt) }

/-- A wave keeps the state of the walk; what it claims is the next frontier. -/
theorem Inv.wave {P : Walk → Prop} (hk : Kept t fresh P) (h : Inv t fresh w segment w.frontier held)
    (hp : P w) :
    ∃ segment' held', Inv t fresh (w.wave t) segment' (w.wave t).frontier held' ∧ P (w.wave t) := by
  have hstart : Inv t fresh { w with frontier := [] } segment ([] ++ w.frontier) held := h.withFrontier []
  obtain ⟨segment', held', hdone, hkept⟩ := hstart.visitAll hk (hk.frontier w hp [])
  exact ⟨segment', held', hdone.reverse.withFrontier _, hk.frontier _ hkept _⟩

end Walk
end HeapRetention
