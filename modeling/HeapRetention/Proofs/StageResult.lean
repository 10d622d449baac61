import HeapRetention.Dominance.Stage
import HeapRetention.Proofs.EdgeLists
import HeapRetention.Proofs.IdomHistory
import HeapRetention.Proofs.PhaseLayers
import HeapRetention.Proofs.RetainedSums

/-! What a dominator stage that comes to its end leaves behind: the numbering and the edge index that it was
computed from, and a settled idom list over the numbered graph. -/
namespace HeapRetention

/-- A dominator stage that came to its end, over the graph that a traversal left behind. -/
def Computed (snapshot : Snapshot) (run : Run) (traversal : Traversal) (tree : DominatorTree) : Prop :=
  ∃ space slices journal journal',
    DominatorStage.compute (.of run snapshot traversal) traversal space slices journal = (journal', .ok tree)

namespace DominatorTree

/-- An edge of the numbered graph. The super root leads to every visited root, a node to what its object
leads to. -/
def Edge (tree : DominatorTree) (g : FlowGraph) (a b : Nat) : Prop :=
  (a = tree.superRoot ∧ ∃ id ∈ g.roots, tree.node? id = some b) ∨
    ∃ u, tree.node? u = some a ∧ ∃ v ∈ g.targets u, tree.node? v = some b

/-- A node that is met when the immediate dominator is taken again and again. -/
def Climbs (tree : DominatorTree) : Nat → Nat → Prop :=
  Relation.ReflTransGen fun a b => tree.immediateDominator? a = some b

end DominatorTree

variable {snapshot : Snapshot} {fresh run : Run} {traversal : Traversal} {tree : DominatorTree}

namespace DominatorStage

theorem number_ok {g : FlowGraph} {room : Nat} {space : ScratchSpace} {p : Postorder}
    (h : number g room space = .ok p) : Postorder.ofGraph g room = .ok p := by
  unfold number at h
  split at h
  · cases h
  · split at h
    · cases h
    · exact h

theorem index_ok {g : FlowGraph} {room : Nat} {space : ScratchSpace} {p : Postorder} {x : EdgeIndex}
    (h : index g room space p = .ok x) : EdgeIndex.ofGraph g p (.covering p.superRoot) = .ok x := by
  unfold index at h
  split at h
  · cases h
  · exact ok_of_mapError h

theorem compute_ok {g : FlowGraph} {space : ScratchSpace} {slices : List Slice} {j j' : Journal}
    (h : compute g traversal space slices j = (j', .ok tree)) :
    ∃ p x, Postorder.ofGraph g (room g traversal) = .ok p ∧
      EdgeIndex.ofGraph g p (.covering p.superRoot) = .ok x ∧
      tree = DominatorStage.tree g traversal p (solve g p x).1 (solve g p x).2 := by
  unfold compute at h
  dsimp only at h
  split at h
  · cases h
  · next p hp =>
    split at h
    · cases h
    · split at h
      · cases h
      · next x hx =>
        split at h
        · cases h
        · split at h
          · cases h
          · cases h
            exact ⟨p, x, number_ok hp, index_ok hx, rfl⟩

end DominatorStage

namespace DominatorTree

/-- The numbering that a tree keeps. -/
def postorder (tree : DominatorTree) : Postorder where
  objects := tree.objects
  numbers := tree.numbers
  superRoot := tree.superRoot
  edgeCount := tree.stats.numberedEdges
  maxDepth := tree.stats.maxDepth

variable {g : FlowGraph} {id a b d : Nat}

theorem node?_eq_some_iff (hn : tree.postorder.Numbers g) :
    tree.node? id = some a ↔ tree.numbers.get id = a ∧ a ≠ 0 := by
  unfold node?
  dsimp only
  constructor
  · intro h
    split at h
    · next hand =>
      cases h
      exact ⟨rfl, hand.2.1⟩
    · cases h
  · rintro ⟨rfl, hne⟩
    have hvisited := hn.visited id hne
    have hid : id ≠ 0 := (Postorder.Search.wasVisited_bounds hvisited).1
    exact if_pos ⟨hid, hne, hn.number_lt id⟩

theorem edge_iff (hn : tree.postorder.Numbers g) : tree.Edge g a b ↔ tree.postorder.Edge g a b := by
  unfold Edge Postorder.Edge
  simp only [node?_eq_some_iff hn]
  constructor
  · rintro (⟨ha, id, hid, hb, -⟩ | ⟨u, ⟨hu, ha⟩, v, hv, hb, -⟩)
    · exact Or.inl ⟨ha, id, hid, hb⟩
    · exact Or.inr ⟨ha, u, hu, v, hv, hb⟩
  · rintro (⟨ha, id, hid, rfl⟩ | ⟨ha, u, rfl, v, hv, rfl⟩)
    · exact Or.inl ⟨ha, id, hid, rfl, hn.roots id hid⟩
    · exact Or.inr ⟨u, ⟨rfl, ha⟩, v, hv, rfl, hn.targets u ha v hv⟩

/-- Taking immediate dominators again and again goes up the chain of the idom list. -/
theorem climbs_iff (h : IsForest tree.idoms tree.superRoot) (ha : a ≤ tree.superRoot)
    (hk : tree.idoms.get a ≠ 0) : tree.Climbs a d ↔ OnChain tree.idoms.get a d := by
  constructor
  · intro hc
    unfold Climbs at hc
    induction hc with
    | refl => exact onChain_self _ _
    | tail _ hstep ih =>
      refine ih.trans ?_
      unfold immediateDominator? at hstep
      split at hstep
      · cases hstep
        exact (onChain_self _ _).below
      · cases hstep
  · rintro ⟨k, rfl⟩
    induction k with
    | zero => exact Relation.ReflTransGen.refl
    | succ k ih =>
      obtain ⟨-, hle, hknown⟩ := h.of_onChain ha hk ⟨k, rfl⟩
      refine Relation.ReflTransGen.tail ih ?_
      have hpos : tree.idoms.get^[k] a ≠ 0 := by
        intro h0
        rw [h0, h.zero] at hknown
        exact hknown rfl
      rw [Function.iterate_succ_apply']
      exact if_pos ⟨hpos, hle⟩

end DominatorTree

/-- A traversal names its roots in ascending order. -/
theorem roots_ascend (hf : fresh.IsFresh) (ht : Traversed snapshot.graph fresh run traversal) :
    (FlowGraph.of run snapshot traversal).roots.Pairwise (· < ·) := by
  obtain ⟨w, segment, held, hinv, -, rfl, hresult⟩ := exists_walk hf ht
  have hroots := pairwise_ascending w.roots
  rw [← (Walk.traversal_eq hresult).2.1] at hroots
  exact hroots.filter _

/-- The numbering behind a tree. -/
theorem ofGraph_of_computed (hc : Computed snapshot run traversal tree) :
    Postorder.ofGraph (.of run snapshot traversal)
      (DominatorStage.room (.of run snapshot traversal) traversal) = .ok tree.postorder := by
  obtain ⟨space, slices, j, j', hcompute⟩ := hc
  obtain ⟨p, x, hp, -, rfl⟩ := DominatorStage.compute_ok hcompute
  exact hp

/-- The changes of the last pass, by the index that the passes worked on. -/
theorem lastChanged_eq (hc : Computed snapshot run traversal tree) {x : EdgeIndex}
    (hx : EdgeIndex.ofGraph (.of run snapshot traversal) tree.postorder (.covering tree.superRoot) = .ok x) :
    tree.stats.lastChanged = ((Fixpoint.solve x tree.superRoot run.config.dominator.maxDominatorIterations
      (.start tree.superRoot)).2.getLast?.map (·.changed)).getD 0 := by
  obtain ⟨space, slices, j, j', hcompute⟩ := hc
  obtain ⟨p, y, -, hy, rfl⟩ := DominatorStage.compute_ok hcompute
  cases hy.symm.trans hx
  rfl

section
variable (hf : fresh.IsFresh) (ht : Traversed snapshot.graph fresh run traversal)
  (hc : Computed snapshot run traversal tree)
include hf ht hc

/-- The steps behind a tree: its numbering, and an index of the edges of the numbered graph. -/
theorem exists_index : tree.postorder.Numbers (.of run snapshot traversal) ∧
    ∃ x, EdgeIndex.ofGraph (.of run snapshot traversal) tree.postorder (.covering tree.superRoot) = .ok x ∧
      x.Describes (tree.postorder.Edge (.of run snapshot traversal)) tree.superRoot ∧
      tree.idoms = (Fixpoint.solve x tree.superRoot fresh.config.dominator.maxDominatorIterations
        (.start tree.superRoot)).1.idoms ∧
      tree.stats.iterations = (Fixpoint.solve x tree.superRoot
        fresh.config.dominator.maxDominatorIterations (.start tree.superRoot)).2.length ∧
      tree.retained = Retained.compute (.of run snapshot traversal) tree.postorder tree.idoms := by
  have hsorted := roots_ascend hf ht
  obtain ⟨w, segment, held, hinv, -, rfl, hresult⟩ := exists_walk hf ht
  obtain ⟨space, slices, j, j', hcompute⟩ := hc
  obtain ⟨p, x, hp, hx, rfl⟩ := DominatorStage.compute_ok hcompute
  have hvisited : ∀ id ∈ (FlowGraph.of w.run snapshot traversal).roots,
      (FlowGraph.of w.run snapshot traversal).run.wasVisited id = true :=
    fun id hid => (List.mem_filter.mp hid).2
  have hnumbers := Postorder.numbers_ofGraph hvisited hp
  rw [← hinv.visits.heap.config]
  exact ⟨hnumbers, x, hx, EdgeIndex.describes_ofGraph hnumbers hsorted hx, rfl, rfl, rfl⟩

/-- With at least one pass every node has an idom that may stand. -/
theorem settled_of_computed (hlimit : 1 ≤ fresh.config.dominator.maxDominatorIterations) :
    SettledFrom (tree.postorder.Edge (.of run snapshot traversal)) tree.superRoot tree.idoms 0 := by
  obtain ⟨hn, x, -, hx, hidoms, -⟩ := exists_index hf ht hc
  rw [hidoms]
  exact settled_solve hx hn.superRoot_pos hlimit

end

/-- A run whose traversal and dominator stage can be evaluated, with what a test says about them. -/
theorem exists_computed (fresh : Run) (snapshot : Snapshot) (space : ScratchSpace)
    (P : Traversal → DominatorTree → Prop) [∀ traversal tree, Decidable (P traversal tree)]
    (h : (fresh.traverse snapshot.graph [] {}).result.toOption.any (fun traversal =>
      (DominatorStage.compute (.of (fresh.traverse snapshot.graph [] {}).run snapshot traversal) traversal
        space [] {}).2.toOption.any fun tree => P traversal tree) = true) :
    ∃ traversal tree, Traversed snapshot.graph fresh (fresh.traverse snapshot.graph [] {}).run traversal ∧
      Computed snapshot (fresh.traverse snapshot.graph [] {}).run traversal tree ∧ P traversal tree := by
  obtain ⟨traversal, ht, h⟩ := exists_ok_of_any h
  obtain ⟨tree, hc, h⟩ := exists_ok_of_any h
  exact ⟨traversal, tree, traversed_of_result ht, ⟨space, [], {}, _, Prod.ext rfl hc⟩, of_decide_eq_true h⟩

end HeapRetention
