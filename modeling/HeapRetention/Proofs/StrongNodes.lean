import HeapRetention.Proofs.StageResult

/-! Which objects the dominator tree covers. It has a node for every object that a strong phase visits. A
cleanup marker that is strongly held has one as well, for it is visited after all, only later; the two sets
agree exactly if there is no such marker or markers are never visited. -/
namespace HeapRetention

variable {snapshot : Snapshot} {graph : HeapGraph} {fresh run : Run} {traversal : Traversal}
  {tree : DominatorTree} {t : Terrain} {w : Walk} {segment : Phase → List ObjectId}
  {held : List ObjectId} {id u v : ObjectId}

/-- The objects that the strong phases visited, in order. -/
def Run.strongVisits (r : Run) (traversal : Traversal) : List ObjectId :=
  r.visitOrder traversal.summary.strongVisited

/-- Whether the strong phases leave nothing behind that is strongly held: markers never come in, or none is
a seed or a strong successor of an object that these phases visit. -/
def Terrain.NoMarkerHeld (t : Terrain) (count : Nat) : Prop :=
  t.options.onlyStrongReferences = true ∨
    ∀ id, t.Candidate count .syntheticTree id → t.isCleanupMarker id = false

namespace Phase

theorem mem_gatherStrong : id ∈ gatherStrong segment ↔ ∃ R, R ≤ .syntheticTree ∧ id ∈ segment R := by
  unfold gatherStrong
  rw [List.mem_flatMap]
  refine exists_congr fun R => and_congr_left fun _ => ?_
  cases R <;> decide

theorem gather_eq_append : gather segment =
    gatherStrong segment ++ [soft, weak, cleanupReferences, finished].flatMap segment := by
  unfold gather gatherStrong
  rw [← List.flatMap_append]
  rfl

end Phase

namespace Walk

/-- The strong phases visit what the last of them reaches. -/
theorem Inv.mem_gatherStrong_iff (h : Inv t fresh w segment [] held) (hend : w.phase = .finished) :
    id ∈ Phase.gatherStrong segment ↔ t.Reach fresh.objectCount .syntheticTree id :=
  Phase.mem_gatherStrong.trans (h.mem_upTo_iff hend (by decide))

theorem Inv.nodup_gatherStrong {opened : List ObjectId} (h : Inv t fresh w segment opened held) :
    (Phase.gatherStrong segment).Nodup := by
  have hnodup := h.nodup_gather
  rw [Phase.gather_eq_append] at hnodup
  exact (List.nodup_append.mp hnodup).1

/-- The strong segments come first in the order of visits. -/
theorem Inv.visitOrder_strong {opened : List ObjectId} (h : Inv t fresh w segment opened held) :
    w.run.visitOrder w.summary.strongVisited = Phase.gatherStrong segment := by
  have horder := h.visits.order
  rw [Phase.gather_eq_append] at horder
  have hle : w.summary.strongVisited ≤ w.visitedCount := by
    have hlen := congrArg List.length horder
    rw [Run.visitOrder, List.length_map, List.length_range, List.length_append] at hlen
    rw [h.visits.strongVisited]
    omega
  have htake := congrArg (List.take w.summary.strongVisited) horder
  rw [h.visits.strongVisited, List.take_left, ← h.visits.strongVisited] at htake
  rw [← htake]
  unfold Run.visitOrder
  rw [← List.map_take, List.take_range, Nat.min_eq_left hle]

end Walk

/-- The strong references of an object are its slots but that of a referent. -/
theorem mem_strongReferences_iff (hv : v ≠ 0) :
    v ∈ t.graph.strongReferences u ↔ ∃ i : Nat, (t.graph.references u)[i]? = some v ∧
      ∀ r, t.graph.referentSlot? u = some r → r.slot ≠ i := by
  unfold HeapGraph.strongReferences
  rw [List.mem_iff_getElem?]
  cases hr : t.graph.referentSlot? u with
  | none => simp only [reduceCtorEq, false_imp_iff, implies_true, and_true]
  | some r =>
    simp only [getElem?_set_zero_iff hv, Option.some.injEq, forall_eq']

theorem outEdge_strong_iff (hv : v ≠ 0) : t.OutEdge .syntheticTree u v ↔
    v ∈ t.graph.strongReferences u ∨ v ∈ (t.syntheticChildren? u).getD [] := by
  rw [mem_strongReferences_iff hv]
  constructor
  · intro h
    cases h with
    | slot hi hne => exact Or.inl ⟨_, hi, hne⟩
    | child hc => exact Or.inr hc
    | @referent r _ hr hi hP honly => cases hs : r.strength <;> rw [hs] at hP <;> exact absurd hP (by decide)
  · rintro (⟨i, hi, hne⟩ | hc)
    · exact .slot hi hne
    · exact .child hc

/-- The successors of an object in the flow graph, told by the edges of the strong phases. -/
theorem mem_targets_iff (h : Walk.Inv (.of snapshot.graph fresh) fresh w segment [] held) :
    v ∈ (FlowGraph.of w.run snapshot traversal).targets u ↔
      w.run.wasVisited v = true ∧ (Terrain.of snapshot.graph fresh).OutEdge .syntheticTree u v := by
  have hchildren : w.run.syntheticChildren? u = (Terrain.of snapshot.graph fresh).syntheticChildren? u := by
    unfold Run.syntheticChildren? Terrain.syntheticChildren? Terrain.of
    rw [h.visits.heap.config, h.visits.heap.tree]
    split <;> rfl
  change v ∈ (snapshot.graph.strongReferences u ++ (w.run.syntheticChildren? u).getD []).filter
    w.run.wasVisited ↔ _
  rw [List.mem_filter, and_comm, List.mem_append, hchildren]
  refine and_congr_right fun hv => ?_
  have hne := (Postorder.Search.wasVisited_bounds (g := .of w.run snapshot traversal) hv).1
  exact (outEdge_strong_iff (t := .of snapshot.graph fresh) hne).symm

theorem mem_roots_iff (hresult : w.traversal graph.classes = .ok traversal) :
    id ∈ (FlowGraph.of w.run snapshot traversal).roots ↔ w.run.wasVisited id = true ∧ id ∈ w.roots := by
  change id ∈ traversal.roots.filter w.run.wasVisited ↔ _
  rw [List.mem_filter, (Walk.traversal_eq hresult).2.1, mem_ascending, and_comm]

section
variable {p : Postorder} (h : Walk.Inv (.of snapshot.graph fresh) fresh w segment [] held)
include h

/-- A visited object that the strong phases hold but do not reach is a marker, and markers may come in. -/
theorem reach_or_marker (hvisited : w.run.wasVisited id = true)
    (hc : (Terrain.of snapshot.graph fresh).Candidate fresh.objectCount .syntheticTree id) :
    (Terrain.of snapshot.graph fresh).Reach fresh.objectCount .syntheticTree id ∨
      (Terrain.of snapshot.graph fresh).isCleanupMarker id = true ∧
        (Terrain.of snapshot.graph fresh).options.onlyStrongReferences = false := by
  cases hm : (Terrain.of snapshot.graph fresh).isCleanupMarker id with
  | true => exact Or.inr ⟨rfl, ((h.admitted id (h.wasVisited_iff.mp hvisited)).marker hm).2⟩
  | false => exact Or.inl (hc.reach ⟨fun _ => Phase.le_refl _, fun ht => absurd ht (by rw [hm]; decide)⟩)

theorem wasVisited_of_reach (hend : w.phase = .finished) {P : Phase}
    (hr : (Terrain.of snapshot.graph fresh).Reach fresh.objectCount P id) :
    w.run.wasVisited id = true := by
  refine h.wasVisited_iff.mpr (h.mem_iff_reach.mpr (hr.mono ?_))
  rw [hend]
  exact Phase.le_finished P

variable (hresult : w.traversal snapshot.graph.classes = .ok traversal)
  (hn : p.Numbers (.of w.run snapshot traversal))
include hresult hn

/-- Unless a marker is held, the strong phases reach whatever has a number. -/
theorem reach_of_numbered (hnone : (Terrain.of snapshot.graph fresh).NoMarkerHeld fresh.objectCount)
    (hid : p.numbers.get id ≠ 0) :
    (Terrain.of snapshot.graph fresh).Reach fresh.objectCount .syntheticTree id := by
  -- from the super root down: the number of a parent is larger
  induction hk : p.superRoot - p.numbers.get id using Nat.strong_induction_on generalizing id with
  | _ k ih =>
    have hvisited := hn.visited id hid
    have hc : (Terrain.of snapshot.graph fresh).Candidate fresh.objectCount .syntheticTree id := by
      rcases hn.parent id hid with hroot | ⟨u, ht, hlt⟩
      · obtain ⟨hv, hs⟩ := h.rooted.seeds id ((mem_roots_iff hresult).mp hroot).2
        exact ⟨hv, Or.inl hs⟩
      · have hless := hn.number_lt u
        have hu := @ih (p.superRoot - p.numbers.get u) (by omega) u (by omega) rfl
        have hclaimed := h.ledger.claimed id (List.mem_append_left _ (h.wasVisited_iff.mp hvisited))
        have hv := (h.ledger.valid_iff id).mp hclaimed.1
        exact ⟨hv, Or.inr ⟨u, hu, ((mem_targets_iff h).mp ht).2⟩⟩
    rcases reach_or_marker h hvisited hc with hr | ⟨hm, honly⟩
    · exact hr
    · rcases hnone with htrue | hall
      · exact absurd htrue (by rw [honly]; decide)
      · exact absurd hm (by rw [hall id hc]; decide)

variable (hend : w.phase = .finished)
include hend

/-- What the strong phases reach before the sentinel comes in has a number. -/
theorem numbered_of_reach_local
    (hr : (Terrain.of snapshot.graph fresh).Reach fresh.objectCount .strongLocal id) :
    p.numbers.get id ≠ 0 := by
  induction hr with
  | seed hs hv ha =>
    have hvisited := wasVisited_of_reach h hend (.seed hs hv ha)
    exact hn.roots _ ((mem_roots_iff hresult).mpr ⟨hvisited, h.rooted.complete _ hv hs⟩)
  | step hu he hv ha ih =>
    have hvisited := wasVisited_of_reach h hend (.step hu he hv ha)
    exact hn.targets _ ih _ ((mem_targets_iff h).mpr ⟨hvisited, he.mono (by decide)⟩)

/-- A visited seed has a number. The sentinel is a root or it is referenced from before its phase. -/
theorem numbered_of_seed (hvisited : w.run.wasVisited id = true) (hv : InHeap fresh.objectCount id)
    (hs : (Terrain.of snapshot.graph fresh).Seed .syntheticTree id) : p.numbers.get id ≠ 0 := by
  have hroot : id ∈ w.roots → p.numbers.get id ≠ 0 :=
    fun hid => hn.roots _ ((mem_roots_iff hresult).mpr ⟨hvisited, hid⟩)
  rcases hs.local_or_sentinel with hlocal | rfl
  · exact hroot (h.rooted.complete _ hv hlocal)
  · have hphase : Phase.syntheticTree ≤ w.phase := by
      rw [hend]
      exact Phase.le_finished _
    rcases h.rooted.sentinel hphase hv with hid | ⟨u, hu, he⟩
    · exact hroot hid
    · have hnumber := numbered_of_reach_local h hresult hn hend hu
      exact hn.targets u hnumber _ ((mem_targets_iff h).mpr ⟨hvisited, he.mono (by decide)⟩)

theorem numbered_of_reach
    (hr : (Terrain.of snapshot.graph fresh).Reach fresh.objectCount .syntheticTree id) :
    p.numbers.get id ≠ 0 := by
  induction hr with
  | seed hs hv ha =>
    exact numbered_of_seed h hresult hn hend (wasVisited_of_reach h hend (.seed hs hv ha)) hv hs
  | step hu he hv ha ih =>
    have hvisited := wasVisited_of_reach h hend (.step hu he hv ha)
    exact hn.targets _ ih _ ((mem_targets_iff h).mpr ⟨hvisited, he⟩)

/-- A visited object has a number if it is strongly held, marker or not. -/
theorem numbered_of_candidate (hvisited : w.run.wasVisited id = true)
    (hc : (Terrain.of snapshot.graph fresh).Candidate fresh.objectCount .syntheticTree id) :
    p.numbers.get id ≠ 0 := by
  rcases hc.source with hs | ⟨u, hu, he⟩
  · exact numbered_of_seed h hresult hn hend hvisited hc.valid hs
  · have hnumber := numbered_of_reach h hresult hn hend hu
    exact hn.targets u hnumber _ ((mem_targets_iff h).mpr ⟨hvisited, he⟩)

/-- A node for each strong visit and no other: that is so exactly if no marker is held. -/
theorem numbered_iff_reach :
    (∀ id, p.numbers.get id ≠ 0 ↔
      (Terrain.of snapshot.graph fresh).Reach fresh.objectCount .syntheticTree id) ↔
      (Terrain.of snapshot.graph fresh).NoMarkerHeld fresh.objectCount := by
  constructor
  · intro hall
    by_contra hsome
    unfold Terrain.NoMarkerHeld at hsome
    push Not at hsome
    obtain ⟨honly, id, hc, hm⟩ := hsome
    have hfalse : (Terrain.of snapshot.graph fresh).options.onlyStrongReferences = false := by
      simpa using honly
    have hmarker : (Terrain.of snapshot.graph fresh).isCleanupMarker id = true := by
      simpa using hm
    have hlate : (Terrain.of snapshot.graph fresh).Reach fresh.objectCount .cleanupReferences id :=
      (hc.mono (by decide)).reach ⟨fun _ => by decide, fun _ => ⟨Phase.le_refl _, hfalse⟩⟩
    have hnumber := numbered_of_candidate h hresult hn hend (wasVisited_of_reach h hend hlate) hc
    exact absurd (((hall id).mp hnumber).admits.marker hmarker).1 (by decide)
  · exact fun hnone id => ⟨reach_of_numbered h hresult hn hnone, numbered_of_reach h hresult hn hend⟩

end

namespace Postorder
variable {p : Postorder} {g : FlowGraph}

/-- The objects that have a number, in the order of their numbers. -/
def numbered (p : Postorder) : List ObjectId :=
  (List.range' 1 (p.superRoot - 1)).map p.objects.get

theorem length_numbered : p.numbered.length = p.superRoot - 1 := by
  unfold numbered
  rw [List.length_map, List.length_range']

theorem Numbers.mem_numbered (hn : p.Numbers g) : id ∈ p.numbered ↔ p.numbers.get id ≠ 0 := by
  unfold numbered
  rw [List.mem_map]
  constructor
  · rintro ⟨k, hk, rfl⟩
    have hbounds := List.mem_range'_1.mp hk
    rw [hn.number_object k (by omega) (by omega)]
    omega
  · intro hid
    have hlt := hn.number_lt id
    exact ⟨p.numbers.get id, List.mem_range'_1.mpr (by omega), hn.object_number id hid⟩

theorem Numbers.nodup_numbered (hn : p.Numbers g) : p.numbered.Nodup := by
  refine List.Nodup.map_on (fun a ha b hb heq => ?_) List.nodup_range'
  have hbounds := List.mem_range'_1.mp ha
  have hbounds' := List.mem_range'_1.mp hb
  rw [← hn.number_object a (by omega) (by omega), heq, hn.number_object b (by omega) (by omega)]

/-- Counting decides whether some objects with numbers are all of those. -/
theorem Numbers.length_eq_iff (hn : p.Numbers g) {ids : List ObjectId} (hnodup : ids.Nodup)
    (hids : ∀ id ∈ ids, p.numbers.get id ≠ 0) :
    p.superRoot - 1 = ids.length ↔ ∀ id, p.numbers.get id ≠ 0 ↔ id ∈ ids := by
  have hsub : ids ⊆ p.numbered := fun id hid => hn.mem_numbered.mpr (hids id hid)
  rw [← length_numbered]
  constructor
  · intro hlen id
    have hperm := (List.subperm_of_subset hnodup hsub).perm_of_length_le (Nat.le_of_eq hlen)
    exact hn.mem_numbered.symm.trans hperm.mem_iff.symm
  · intro hall
    refine List.Perm.length_eq ((List.perm_ext_iff_of_nodup hn.nodup_numbered hnodup).mpr fun id => ?_)
    exact hn.mem_numbered.trans (hall id)

end Postorder

/-- The nodes of the dominator tree against the strong visits. The strong phases visit what the last of them
reaches, once each, and that is what the strong histogram counts. All of it has a node; nothing else has one,
and the counts agree, exactly if no cleanup marker is strongly held or markers never come in. -/
theorem covers_strong_iff (hf : fresh.IsFresh) (ht : Traversed snapshot.graph fresh run traversal)
    (hc : Computed snapshot run traversal tree) :
    (∀ id, id ∈ run.strongVisits traversal ↔
      (Terrain.of snapshot.graph fresh).Reach fresh.objectCount .syntheticTree id) ∧
    (run.strongVisits traversal).Nodup ∧
    ((run.strongVisits traversal).foldl (fun s id =>
      s.add (snapshot.graph.classOf id) (snapshot.graph.sizeOf id)) ({} : Tally)).histogram
        snapshot.graph.classes = .ok traversal.strong ∧
    (∀ id ∈ run.strongVisits traversal, ∃ k, tree.node? id = some k) ∧
    ((∀ id, (∃ k, tree.node? id = some k) ↔ id ∈ run.strongVisits traversal) ↔
      (Terrain.of snapshot.graph fresh).NoMarkerHeld fresh.objectCount) ∧
    (tree.nodeCount = traversal.summary.strongVisited ↔
      (Terrain.of snapshot.graph fresh).NoMarkerHeld fresh.objectCount) := by
  obtain ⟨hn, -⟩ := exists_index hf ht hc
  obtain ⟨w, segment, held, h, hend, rfl, hresult⟩ := exists_walk hf ht
  obtain ⟨-, -, hhistogram, hcount⟩ := Walk.traversal_eq hresult
  have hnode : ∀ id, (∃ k, tree.node? id = some k) ↔ tree.postorder.numbers.get id ≠ 0 := by
    intro id
    simp only [DominatorTree.node?_eq_some_iff hn, exists_eq_left']
    rfl
  have hreach : ∀ id, id ∈ Phase.gatherStrong segment ↔
      (Terrain.of snapshot.graph fresh).Reach fresh.objectCount .syntheticTree id :=
    fun id => h.mem_gatherStrong_iff hend
  have hnumbered : ∀ id ∈ Phase.gatherStrong segment, tree.postorder.numbers.get id ≠ 0 :=
    fun id hid => numbered_of_reach h hresult hn hend ((hreach id).mp hid)
  have hagree : (∀ id, tree.postorder.numbers.get id ≠ 0 ↔ id ∈ Phase.gatherStrong segment) ↔
      (Terrain.of snapshot.graph fresh).NoMarkerHeld fresh.objectCount := by
    simp only [hreach]
    exact numbered_iff_reach h hresult hn hend
  have hvisits : w.run.strongVisits traversal = Phase.gatherStrong segment := by
    unfold Run.strongVisits
    rw [hcount, h.visitOrder_strong]
  rw [hvisits, hcount]
  refine ⟨hreach, h.nodup_gatherStrong, ?_, fun id hid => (hnode id).mpr (hnumbered id hid), ?_, ?_⟩
  · rw [h.visits.strong] at hhistogram
    exact hhistogram
  · simp only [hnode]
    exact hagree
  · rw [← hagree, h.visits.strongVisited]
    exact hn.length_eq_iff h.nodup_gatherStrong hnumbered

/-- A heap whose root holds a cleanup marker. -/
def markerHeap : HeapGraph where
  classes := .ofList [{ name := "sun.misc.Cleaner" }, { name := "Node" }]
  objects := #[
    { classId := 2, size := 4, references := [2] },
    { classId := 1, size := 4 }]
  roots := [{ id := 1 }]

def markerRun : Run where
  config := {}
  objectCount := 2
  parents := .create 4
  sizes := .create 4
  visited := .create 4
  roles := .create 4

theorem markerRun_isFresh : markerRun.IsFresh :=
  ⟨{}, 2, none, { available := .ok 1000 }, rfl⟩

def markerVisits : Run :=
  (markerRun.traverse markerHeap [] {}).run

set_option maxRecDepth 10000 in
/-- What the stages make of that heap: the marker has a node and no strong visit. -/
theorem exists_marker : ∃ traversal tree, Traversed markerHeap markerRun markerVisits traversal ∧
    Computed { graph := markerHeap } markerVisits traversal tree ∧
    markerVisits.strongVisits traversal = [1] ∧ traversal.summary.strongVisited = 1 ∧
    traversal.strong.instanceCount = 1 ∧ tree.node? 2 = some 1 ∧ tree.nodeCount = 2 :=
  exists_computed markerRun { graph := markerHeap } { available := .ok 1000 } _ (by decide +kernel)

theorem covers_strong_iff_markerHeap : markerRun.IsFresh ∧ ∃ traversal tree,
    Traversed markerHeap markerRun markerVisits traversal ∧
    Computed { graph := markerHeap } markerVisits traversal tree ∧
    (∀ id, id ∈ markerVisits.strongVisits traversal ↔
      (Terrain.of markerHeap markerRun).Reach 2 .syntheticTree id) ∧
    (markerVisits.strongVisits traversal).Nodup ∧
    ((markerVisits.strongVisits traversal).foldl (fun s id =>
      s.add (markerHeap.classOf id) (markerHeap.sizeOf id)) ({} : Tally)).histogram markerHeap.classes =
        .ok traversal.strong ∧
    (∀ id ∈ markerVisits.strongVisits traversal, ∃ k, tree.node? id = some k) ∧
    ((∀ id, (∃ k, tree.node? id = some k) ↔ id ∈ markerVisits.strongVisits traversal) ↔
      (Terrain.of markerHeap markerRun).NoMarkerHeld 2) ∧
    (tree.nodeCount = traversal.summary.strongVisited ↔
      (Terrain.of markerHeap markerRun).NoMarkerHeld 2) := by
  obtain ⟨traversal, tree, ht, hc, -⟩ := exists_marker
  exact ⟨markerRun_isFresh, traversal, tree, ht, hc,
    @covers_strong_iff { graph := markerHeap } _ _ _ _ markerRun_isFresh ht hc⟩

/-- The marker is no strong visit, and the strong histogram counts the root alone; yet the marker has a
node. The stage follows every strong reference to a visited object, in whatever phase that was visited. -/
theorem marker_has_node : markerRun.IsFresh ∧ ∃ traversal tree,
    Traversed markerHeap markerRun markerVisits traversal ∧
    Computed { graph := markerHeap } markerVisits traversal tree ∧
    traversal.strong.instanceCount = 1 ∧ 2 ∉ markerVisits.strongVisits traversal ∧ tree.node? 2 = some 1 ∧
    ¬(∀ id, (∃ k, tree.node? id = some k) ↔ id ∈ markerVisits.strongVisits traversal) ∧
    tree.nodeCount ≠ traversal.summary.strongVisited := by
  obtain ⟨traversal, tree, ht, hc, hstrong, hcount, hinstances, hnode, hnodes⟩ := exists_marker
  have hnot : 2 ∉ markerVisits.strongVisits traversal := by
    rw [hstrong]
    decide
  refine ⟨markerRun_isFresh, traversal, tree, ht, hc, hinstances, hnot, hnode, ?_, ?_⟩
  · exact fun hall => hnot ((hall 2).mp ⟨1, hnode⟩)
  · rw [hnodes, hcount]
    decide

end HeapRetention
