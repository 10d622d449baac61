import HeapRetention.Proofs.ShortestChains
import HeapRetention.Proofs.TallyTotals

/-! Nothing that a walk puts off is lost. Every queue is filled before its phase begins and handed over whole
when it does, so over all turns each phase is given the edges that were put off to it, in that order. An
object enters the frontier when it is claimed; only the phases of the sentinel and of cleanup bring back what
is claimed already. -/
namespace HeapRetention

/-- An edge with the phase that it waits for. -/
abbrev Deferral := Phase × PendingEdge

/-- The edges that wait for a phase. -/
def dueIn (P : Phase) (ds : List Deferral) : List PendingEdge :=
  (ds.filter fun d => d.1 = P).map Prod.snd

theorem dueIn_append (P : Phase) (ds ds' : List Deferral) : dueIn P (ds ++ ds') = dueIn P ds ++ dueIn P ds' := by
  unfold dueIn
  rw [List.filter_append, List.map_append]

/-- The phases after this one. -/
def Phase.following (P : Phase) : List Phase :=
  Phase.inOrder.drop (P.rank + 1)

namespace PhaseQueues

def deferAll (q : PhaseQueues) (ds : List Deferral) : PhaseQueues :=
  ds.foldl (fun q d => q.defer d.1 d.2) q

end PhaseQueues

namespace Walk
variable {t : Terrain} {fresh : Run} {w w' : Walk} {segment : Phase → List ObjectId}
  {next rest held : List ObjectId} {id v : ObjectId}

/-- What is put off when an object of the frontier is met. -/
def deferrals (t : Terrain) (w : Walk) (id : ObjectId) : List Deferral :=
  if t.passesOver w.phase id then
    if id = t.sentinel ∧ w.phase < .syntheticTree then []
    else if t.options.onlyStrongReferences then []
    else [(.cleanupReferences, .revisit id)]
  else
    match t.postponedReferent? w.phase id with
    | some (phase, referent, role) =>
      if !t.options.onlyStrongReferences && w.run.isValid referent then [(phase, .referent referent id role)]
      else []
    | none => []

/-- What a turn puts off. -/
def handed (t : Terrain) (w : Walk) : List Deferral :=
  w.frontier.flatMap (w.deferrals t)

/-- The phase that a turn enters, if it enters one. -/
def entered (w : Walk) : List Phase :=
  if w.frontier.isEmpty then [w.phase.next] else []

/-- What a turn releases: all that waits for the phase that it enters. -/
def released (w : Walk) : List Deferral :=
  w.entered.flatMap fun P => (w.queues.pending P).map (P, ·)

/-- The objects that a turn visits. -/
def processed (t : Terrain) (w : Walk) : List ObjectId :=
  w.frontier.filter fun id => !t.passesOver w.phase id

/-- How often an object may still enter the frontier: when it is claimed, when the phase of the sentinel
begins if it is the sentinel, and when cleanup begins. -/
def entriesLeft (t : Terrain) (w : Walk) (id : ObjectId) : Nat :=
  (if w.run.isUnclaimed id then 1 else 0) + (if id = t.sentinel ∧ w.phase < .syntheticTree then 1 else 0) +
    if w.phase < .cleanupReferences then 1 else 0

/-- The books of a walk over some turns: what it visits, what it puts off and releases, which phases it enters
and what enters its frontier. -/
structure Account (t : Terrain) (w : Walk) (states : List Walk) (last : Walk) : Prop where
  order : last.run.visitOrder last.visitedCount =
    w.run.visitOrder w.visitedCount ++ states.flatMap (processed t)
  balance : ∀ P, w.queues.pending P ++ dueIn P (states.flatMap (handed t)) =
    dueIn P (states.flatMap released) ++ last.queues.pending P
  entered : states.flatMap Walk.entered ++ last.phase.following = w.phase.following
  filled : ∀ u ∈ states, u.frontier ≠ [] → (u.turn t).queues = u.queues.deferAll (u.handed t)
  entries : ∀ id, (states.flatMap Walk.frontier).count id + last.frontier.count id + last.entriesLeft t id ≤
    w.frontier.count id + w.entriesLeft t id

theorem Account.nil (t : Terrain) (w : Walk) : Account t w [] w where
  order := (List.append_nil _).symm
  balance P := List.append_nil _
  entered := rfl
  filled u hu := absurd hu List.not_mem_nil
  entries id := by rw [List.flatMap_nil, List.count_nil, Nat.zero_add]

theorem Account.cons {states : List Walk} {last : Walk} (h : Account t w [w] (w.turn t))
    (h' : Account t (w.turn t) states last) : Account t w (w :: states) last := by
  rw [← List.singleton_append]
  exact {
    order := by
      rw [h'.order, h.order, List.append_assoc, List.flatMap_append]
    balance := fun P => by
      rw [List.flatMap_append, List.flatMap_append, dueIn_append, dueIn_append, ← List.append_assoc, h.balance,
        List.append_assoc, h'.balance, List.append_assoc]
    entered := by
      rw [List.flatMap_append, List.append_assoc, h'.entered, h.entered]
    filled := fun u hu hopen => by
      rcases List.mem_append.mp hu with hu | hu
      · exact h.filled u hu hopen
      · exact h'.filled u hu hopen
    entries := fun id => by
      have hfirst := h.entries id
      have hrest := h'.entries id
      rw [List.flatMap_append, List.count_append]
      omega }

end Walk

end HeapRetention
