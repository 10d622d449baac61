import HeapRetention.Proofs.DepthFirst
import HeapRetention.Proofs.HeapConservation

/-! The edges that a traversal counts bound those of the flow graph. A visit reads the slot of a referent as
null only while its phase lies ahead, and the flow graph always does; so whatever the phase of a visit, it
counts no less than the targets of its object. -/
namespace HeapRetention

theorem countP_set_zero_le {p : ObjectId → Bool} (hp : p 0 = false) (slots : List ObjectId) (i : Nat) :
    (slots.set i 0).countP p ≤ slots.countP p := by
  by_cases hi : i < slots.length
  · rw [List.countP_set hi, hp]
    simp only [Bool.false_eq_true, if_false, Nat.add_zero, Nat.sub_le]
  · rw [List.set_eq_of_length_le (Nat.not_lt.mp hi)]

theorem countP_validSlots {isValid : ObjectId → Bool} (h0 : isValid 0 = false) (slots : List ObjectId) :
    (slots.map fun v => if isValid v then v else 0).countP (· ≠ 0) = slots.countP isValid := by
  rw [List.countP_map]
  apply List.countP_congr
  intro v _
  dsimp only [Function.comp]
  split
  · next hv =>
    simp only [hv, decide_eq_true_eq, iff_true]
    rintro rfl
    rw [h0] at hv
    cases hv
  · next hv => simp only [hv, ne_eq, not_true_eq_false, decide_false]

namespace Terrain
variable {t : Terrain} {isValid : ObjectId → Bool} {id : ObjectId}

/-- The edges of an object that the flow graph may have: strong references and synthetic children that name
objects. -/
def flowEdges (t : Terrain) (isValid : ObjectId → Bool) (id : ObjectId) : Nat :=
  (t.graph.strongReferences id ++ (t.syntheticChildren? id).getD []).countP isValid

/-- Whatever a visit reads as null, the flow graph does not follow. -/
theorem countP_strong_le (h0 : isValid 0 = false) (P : Phase) (id : ObjectId) :
    (t.graph.strongReferences id).countP isValid ≤ (t.followedSlots isValid P id).countP (· ≠ 0) := by
  have hplain := countP_validSlots h0 (t.graph.references id)
  unfold followedSlots HeapGraph.strongReferences
  cases hr : t.graph.referentSlot? id with
  | none =>
    rw [postponedReferent?_of_none hr]
    exact hplain.ge
  | some r =>
    cases t.postponedReferent? P id with
    -- the slot of the referent is followed
    | none =>
      calc ((t.graph.references id).set r.slot 0).countP isValid
        _ ≤ (t.graph.references id).countP isValid := countP_set_zero_le h0 _ _
        _ = _ := hplain.symm
    -- both read it as null
    | some _ =>
      have hset := countP_validSlots h0 ((t.graph.references id).set r.slot 0)
      rw [List.map_set, h0] at hset
      exact hset.ge

end Terrain

theorem Claims.edges_followAll {holder : ObjectId} {isArray recordRoles : Bool} {fieldCount : Nat}
    (targets : List ObjectId) (c : Claims) (index : Nat) :
    (c.followAll holder isArray recordRoles fieldCount targets index).edges =
      c.edges + targets.countP (· ≠ 0) := by
  induction targets generalizing c index with
  | nil => rfl
  | cons v targets ih =>
    have hfollow : (c.follow holder isArray recordRoles fieldCount v index).edges =
        c.edges + if v ≠ 0 then 1 else 0 := by
      unfold Claims.follow
      by_cases hv : v = 0
      · simp only [hv, if_true, ne_eq, not_true_eq_false, if_false, Nat.add_zero]
      · simp only [hv, if_false, ne_eq, not_false_eq_true, if_true]
        split
        · rfl
        · rfl
    rw [Claims.followAll, ih, hfollow, List.countP_cons]
    simp only [decide_eq_true_eq]
    omega

namespace Walk
variable {t : Terrain} {fresh : Run} {w : Walk} {next rest held : List ObjectId} {id : ObjectId}
  {segment : Phase → List ObjectId}

/-- The edges counted so far are no less than those that the flow graph may have. -/
def CountsEdges (t : Terrain) (fresh : Run) (w : Walk) : Prop :=
  ((w.run.visitOrder w.visitedCount).map (t.flowEdges fresh.isValid)).sum ≤ w.summary.edgeCount

theorem count_edges (s : TraversalSummary) (P : Phase) (edges size : Nat) (leaf : Bool) :
    (s.count P edges size leaf).edgeCount = s.edgeCount + edges := by
  unfold TraversalSummary.count
  cases P <;> rfl

theorem visit_edges (t : Terrain) (w : Walk) (next : List ObjectId) (id : ObjectId) :
    (w.visit t next id).1.summary.edgeCount = w.summary.edgeCount +
      (t.followedSlots w.run.isValid w.phase id ++ (t.syntheticChildren? id).getD []).countP (· ≠ 0) := by
  obtain ⟨q, hq, -⟩ := postpone_eq t w id
  unfold visit
  rw [hq]
  dsimp only
  rw [count_edges, Claims.edges_followAll]
  dsimp only
  rw [Nat.zero_add]
  split
  · rfl
  · rfl

theorem CountsEdges.visit (hw : Inv t fresh w segment (next ++ id :: rest) held) (h : w.CountsEdges t fresh) :
    (w.visit t next id).1.CountsEdges t fresh := by
  have hedges := visit_edges t w next id
  have hmore : t.flowEdges fresh.isValid id ≤
      (t.followedSlots fresh.isValid w.phase id ++ (t.syntheticChildren? id).getD []).countP (· ≠ 0) := by
    unfold Terrain.flowEdges
    rw [List.countP_append, List.countP_append]
    apply Nat.add_le_add (Terrain.countP_strong_le rfl w.phase id)
    apply List.countP_mono_left
    intro v _ hv
    rw [decide_eq_true_iff]
    rintro rfl
    cases hv
  unfold CountsEdges at h ⊢
  rw [hedges, hw.isValid_eq, hw.visitOrder_visit, List.map_append, List.sum_append, List.map_singleton, List.sum_singleton]
  exact Nat.add_le_add h hmore

theorem kept_countsEdges (t : Terrain) (fresh : Run) : Kept t fresh (CountsEdges t fresh) := by
  apply Kept.of_visits
  · intro w parents roles phase frontier queues roots h
    exact h
  · intro w segment next id rest held hw h
    exact h.visit hw

theorem countsEdges_start (hf : fresh.IsFresh) (nominated : List ClassId) :
    (start t fresh nominated).CountsEdges t fresh := by
  obtain ⟨w, hw, heq⟩ := exists_opening t hf nominated
  unfold CountsEdges
  rw [heq]
  dsimp only
  rw [hw.blank.1]
  exact Nat.zero_le _

end Walk

namespace FlowGraph

/-- The objects of the flow graph in ascending order. -/
def nodes (g : FlowGraph) : List ObjectId :=
  g.run.objectIds.filter g.run.wasVisited

/-- The number of edges but those of the super root. -/
def edgeTotal (g : FlowGraph) : Nat :=
  (g.nodes.map fun id => (g.targets id).length).sum

theorem nodup_nodes (g : FlowGraph) : g.nodes.Nodup :=
  List.Nodup.filter _ List.nodup_range'

theorem mem_nodes_iff {g : FlowGraph} {id : ObjectId} : id ∈ g.nodes ↔ g.run.wasVisited id = true := by
  unfold nodes
  rw [List.mem_filter, and_iff_right_iff_imp]
  intro h
  obtain ⟨hne, hle⟩ := Postorder.Search.wasVisited_bounds h
  exact List.mem_range'_1.mpr ⟨Nat.pos_of_ne_zero hne, by omega⟩

end FlowGraph

/-- No edge of the flow graph was missed when the traversal counted edges. -/
theorem edgeTotal_le {snapshot : Snapshot} {fresh run : Run} {traversal : Traversal} (hf : fresh.IsFresh)
    (ht : Traversed snapshot.graph fresh run traversal) :
    (FlowGraph.of run snapshot traversal).edgeTotal ≤ traversal.summary.edgeCount := by
  have hk := Walk.kept_countsEdges (.of snapshot.graph fresh) fresh
  obtain ⟨w, segment, held, hw, -, hcounts, rfl, hresult⟩ :=
    exists_walk_keeping hk (Walk.countsEdges_start hf _) hf ht
  obtain ⟨-, hsummary⟩ := Walk.nonStrong_of_traversal hresult
  have hsame := hw.visits.heap
  have hvisited : (FlowGraph.of w.run snapshot traversal).nodes.Perm (w.run.visitOrder w.visitedCount) := by
    apply (List.perm_ext_iff_of_nodup (FlowGraph.nodup_nodes _) ?_).mpr
    · intro id
      rw [FlowGraph.mem_nodes_iff, hw.visits.order]
      exact hw.wasVisited_iff
    · rw [hw.visits.order]
      exact hw.nodup_gather
  have hchildren : ∀ id, w.run.syntheticChildren? id =
      (Terrain.of snapshot.graph fresh).syntheticChildren? id := by
    intro id
    unfold Run.syntheticChildren? Terrain.syntheticChildren? Terrain.of
    rw [hsame.config, hsame.tree]
    split
    · rfl
    · rfl
  have htargets : ∀ id, ((FlowGraph.of w.run snapshot traversal).targets id).length ≤
      (Terrain.of snapshot.graph fresh).flowEdges fresh.isValid id := by
    intro id
    unfold FlowGraph.targets Terrain.flowEdges
    rw [← List.countP_eq_length_filter, ← hchildren]
    apply List.countP_mono_left
    intro v _ hv
    have hvalid := (Bool.and_eq_true_iff.mp hv).1
    change (v != 0 && decide (v ≤ w.run.objectCount)) = true at hvalid
    rw [hsame.objectCount] at hvalid
    exact hvalid
  calc (FlowGraph.of w.run snapshot traversal).edgeTotal
    _ ≤ ((FlowGraph.of w.run snapshot traversal).nodes.map
          ((Terrain.of snapshot.graph fresh).flowEdges fresh.isValid)).sum :=
        List.sum_le_sum fun id _ => htargets id
    _ = ((w.run.visitOrder w.visitedCount).map
          ((Terrain.of snapshot.graph fresh).flowEdges fresh.isValid)).sum := (hvisited.map _).sum_eq
    _ ≤ w.summary.edgeCount := hcounts
    _ = traversal.summary.edgeCount := by rw [hsummary]

end HeapRetention
