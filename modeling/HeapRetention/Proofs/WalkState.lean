import HeapRetention.Proofs.WalkClaims

/-! The state of a walk between two visits. The visited objects fall into one segment a phase; the segments
of the phases that are over are exact. Whatever a later phase may reach in one step from there is claimed
already or waits in the queue of a phase up to that one. -/
namespace HeapRetention

namespace Phase

def inOrder : List Phase :=
  [.strongNonLocal, .strongLocal, .syntheticTree, .soft, .weak, .cleanupReferences, .finished]

/-- The objects of all segments, in the order of their phases. -/
def gather (segment : Phase → List ObjectId) : List ObjectId :=
  inOrder.flatMap segment

def gatherStrong (segment : Phase → List ObjectId) : List ObjectId :=
  [strongNonLocal, strongLocal, syntheticTree].flatMap segment

/-- One more object at the end of a segment. -/
def extend (segment : Phase → List ObjectId) (P : Phase) (id : ObjectId) (Q : Phase) : List ObjectId :=
  if Q = P then segment P ++ [id] else segment Q

variable {segment : Phase → List ObjectId} {P Q : Phase} {id : ObjectId}

theorem mem_gather : id ∈ gather segment ↔ ∃ P, id ∈ segment P := by
  unfold gather
  rw [List.mem_flatMap]
  constructor
  · rintro ⟨P, -, h⟩
    exact ⟨P, h⟩
  · rintro ⟨P, h⟩
    exact ⟨P, by cases P <;> decide, h⟩

/-- As long as the later segments are empty, the end of a segment is the end of all. -/
theorem flatMap_extend (hlater : ∀ Q, P < Q → segment Q = []) (id : ObjectId) (before after : List Phase)
    (hbefore : ∀ Q ∈ before, Q < P) (hafter : ∀ Q ∈ after, P < Q) :
    (before ++ P :: after).flatMap (extend segment P id) =
      (before ++ P :: after).flatMap segment ++ [id] := by
  have hkeep : ∀ Q, Q ≠ P → extend segment P id Q = segment Q := fun Q hne => if_neg hne
  have hself : extend segment P id P = segment P ++ [id] := if_pos rfl
  have hfirst : before.flatMap (extend segment P id) = before.flatMap segment := by
    refine List.flatMap_congr fun Q hQ => hkeep Q ?_
    rintro rfl
    exact Nat.lt_irrefl Q.rank (hbefore Q hQ)
  have hnil : after.flatMap segment = [] :=
    List.flatMap_eq_nil_iff.mpr fun Q hQ => hlater Q (hafter Q hQ)
  have hlast : after.flatMap (extend segment P id) = [] := by
    rw [← hnil]
    refine List.flatMap_congr fun Q hQ => hkeep Q ?_
    rintro rfl
    exact Nat.lt_irrefl Q.rank (hafter Q hQ)
  rw [List.flatMap_append, List.flatMap_cons, List.flatMap_append, List.flatMap_cons, hfirst, hlast, hnil,
    hself, List.append_nil, List.append_nil, List.append_assoc]

theorem gather_extend (hlater : ∀ Q, P < Q → segment Q = []) (id : ObjectId) :
    gather (extend segment P id) = gather segment ++ [id] := by
  have hsplit : inOrder = inOrder.take P.rank ++ P :: inOrder.drop (P.rank + 1) := by
    cases P <;> rfl
  have hbefore : ∀ Q ∈ inOrder.take P.rank, Q < P := by
    cases P <;> decide
  have hafter : ∀ Q ∈ inOrder.drop (P.rank + 1), P < Q := by
    cases P <;> decide
  unfold gather
  rw [hsplit]
  exact flatMap_extend hlater id _ _ hbefore hafter

theorem gatherStrong_extend (hlater : ∀ Q, P < Q → segment Q = []) (id : ObjectId) :
    gatherStrong (extend segment P id) =
      if P.isStrong then gatherStrong segment ++ [id] else gatherStrong segment := by
  unfold gatherStrong
  cases P with
  | strongNonLocal => exact flatMap_extend hlater id [] _ (by decide) (by decide)
  | strongLocal => exact flatMap_extend hlater id [.strongNonLocal] _ (by decide) (by decide)
  | syntheticTree =>
    exact flatMap_extend hlater id [.strongNonLocal, .strongLocal] _ (by decide) (by decide)
  | _ => rfl

end Phase

/-- Two runs over the same heap with the same options. -/
structure Run.SameHeap (r r' : Run) : Prop where
  config : r'.config = r.config
  objectCount : r'.objectCount = r.objectCount
  tree : r'.tree? = r.tree?

/-- What a run and its counts say about the objects visited so far. -/
structure Visits (t : Terrain) (fresh run : Run) (visitedCount : Nat) (strong : Tally)
    (strongVisited : Nat) (segment : Phase → List ObjectId) : Prop where
  heap : fresh.SameHeap run
  capacity_visited : run.visited.capacity = fresh.objectCount + 2
  capacity_sizes : run.sizes.capacity = fresh.objectCount + 2
  order : run.visitOrder visitedCount = Phase.gather segment
  sizes : ∀ id, run.sizes.get id =
    if id ∈ Phase.gather segment then sizeInUnits (t.graph.sizeOf id) else 0
  strong : strong =
    (Phase.gatherStrong segment).foldl (fun s id => s.add (t.graph.classOf id) (t.graph.sizeOf id)) {}
  strongVisited : strongVisited = (Phase.gatherStrong segment).length

/-- A claimed object that no phase has to come back to: the sentinel, which waits for its own phase
anyway, and a cleanup marker when only strong references count. -/
def Terrain.Spared (t : Terrain) (P : Phase) (id : ObjectId) : Prop :=
  (id = t.sentinel ∧ P < .syntheticTree) ∨
    (t.options.onlyStrongReferences = true ∧ t.isCleanupMarker id = true)

/-- An object that is claimed or will be by the time phase `Q` has begun. -/
def Promised (run : Run) (P : Phase) (queues : PhaseQueues) (Q : Phase) (id : ObjectId) : Prop :=
  run.IsClaimed id ∨ ∃ R, P < R ∧ R ≤ Q ∧ ∃ e ∈ queues.pending R, e.target = id

/-- What waits for the phases after `P`. -/
structure Queued (t : Terrain) (count : Nat) (run : Run) (P : Phase) (queues : PhaseQueues)
    (seen held : List ObjectId) : Prop where
  sentinel : P < .syntheticTree →
    queues.pending .syntheticTree = if t.sentinel = 0 then [] else [.revisit t.sentinel]
  cleanup : queues.pending .cleanupReferences = held.map .revisit
  claims : ∀ Q, P < Q → Q ≠ .syntheticTree → Q ≠ .cleanupReferences →
    ∀ e ∈ queues.pending Q, Walk.IsClaim e
  sound : ∀ Q, P < Q → ∀ e ∈ queues.pending Q, InHeap count e.target → t.Candidate count Q e.target
  strongOnly : t.options.onlyStrongReferences = true → ∀ Q, .syntheticTree < Q → queues.pending Q = []
  seeds : ∀ Q, P ≤ Q → ∀ id, InHeap count id → t.Seed Q id → Promised run P queues Q id
  edges : ∀ Q, P ≤ Q → ∀ u ∈ seen, ∀ v, InHeap count v → t.OutEdge Q u v → Promised run P queues Q v

/-- What the list of roots has. The sentinel enters it only if nothing claimed it ahead of its phase. -/
structure Rooted (t : Terrain) (count : Nat) (P : Phase) (roots : List ObjectId) : Prop where
  seeds : ∀ id ∈ roots, InHeap count id ∧ t.Seed .syntheticTree id
  complete : ∀ id, InHeap count id → t.Seed .strongLocal id → id ∈ roots
  sentinel : .syntheticTree ≤ P → InHeap count t.sentinel →
    t.sentinel ∈ roots ∨ ∃ u, t.Reach count .strongLocal u ∧ t.OutEdge .strongLocal u t.sentinel

/-- The state of a walk with its visited objects, the open ones and those held back for cleanup. -/
structure Walk.Inv (t : Terrain) (fresh : Run) (w : Walk) (segment : Phase → List ObjectId)
    (opened held : List ObjectId) : Prop where
  crash : w.crash? = none
  visits : Visits t fresh w.run w.visitedCount w.strong w.summary.strongVisited segment
  ledger : Ledger w.run fresh.objectCount (Phase.gather segment) opened held (t.Spared w.phase)
  queued : Queued t fresh.objectCount w.run w.phase w.queues (Phase.gather segment) held
  rooted : Rooted t fresh.objectCount w.phase w.roots
  justified : ∀ id, w.run.IsClaimed id → t.Candidate fresh.objectCount w.phase id
  admitted : ∀ id ∈ Phase.gather segment, t.Admits w.phase id
  later : ∀ Q, w.phase < Q → segment Q = []
  layers : ∀ Q, Q < w.phase → ∀ id, (∃ R, R ≤ Q ∧ id ∈ segment R) ↔ t.Reach fresh.objectCount Q id
  markers : ∀ id ∈ held, t.isCleanupMarker id = true ∧ w.phase < .cleanupReferences ∧
    (id = t.sentinel → .syntheticTree ≤ w.phase)
  strongOnly : t.options.onlyStrongReferences = true → .syntheticTree < w.phase → opened = []

variable {t : Terrain} {fresh : Run} {w : Walk} {segment : Phase → List ObjectId}
  {opened held : List ObjectId} {id : ObjectId}

theorem Promised.claimed {run : Run} {P : Phase} {queues : PhaseQueues}
    (h : Promised run P queues P id) : run.IsClaimed id := by
  rcases h with hc | ⟨R, hlt, hle, -⟩
  · exact hc
  · exact absurd hlt (Phase.not_lt.mpr hle)

/-- An object that a phase lets in was visited or is open once it is claimed. -/
theorem Walk.Inv.mem_of_claimed (h : Walk.Inv t fresh w segment opened held) (hc : w.run.IsClaimed id)
    (ha : t.Admits w.phase id) : id ∈ Phase.gather segment ∨ id ∈ opened := by
  rcases h.ledger.covered id hc with hin | ⟨hs, hlt⟩ | ⟨honly, hm⟩
  · rcases List.mem_append.mp hin with hseen | hin
    · exact Or.inl hseen
    · rcases List.mem_append.mp hin with hopen | hheld
      · exact Or.inr hopen
      · obtain ⟨hm, hlt, -⟩ := h.markers id hheld
        exact absurd hlt (Phase.not_lt.mpr (ha.marker hm).1)
  · exact absurd hlt (Phase.not_lt.mpr (ha.sentinel hs))
  · exact absurd (ha.marker hm).2 (by rw [honly]; decide)

/-- Once nothing is open the visited objects are those that the phase reaches. -/
theorem Walk.Inv.mem_iff_reach (h : Walk.Inv t fresh w segment [] held) :
    id ∈ Phase.gather segment ↔ t.Reach fresh.objectCount w.phase id := by
  constructor
  · intro hin
    have hc := h.ledger.claimed id (List.mem_append_left _ hin)
    exact (h.justified id hc).reach (h.admitted id hin)
  · intro hr
    have hmem : ∀ v, w.run.IsClaimed v → t.Admits w.phase v → v ∈ Phase.gather segment :=
      fun v hc ha => (h.mem_of_claimed hc ha).resolve_right List.not_mem_nil
    induction hr with
    | seed hs hv ha => exact hmem _ (h.queued.seeds _ (Phase.le_refl _) _ hv hs).claimed ha
    | step _ he hv ha ih => exact hmem _ (h.queued.edges _ (Phase.le_refl _) _ ih _ hv he).claimed ha

end HeapRetention
