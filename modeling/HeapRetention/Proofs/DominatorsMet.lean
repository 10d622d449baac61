import HeapRetention.Proofs.StageResult

/-! No dominator is missed. Every entry of the idom list lies at or below all dominators of its node, from
the first pass on, so the chain of a node goes through all of them; a node therefore retains at least what
it dominates. -/
namespace HeapRetention

variable {snapshot : Snapshot} {fresh run : Run} {traversal : Traversal} {tree : DominatorTree}

theorem edge_eq (hf : fresh.IsFresh) (ht : Traversed snapshot.graph fresh run traversal)
    (hc : Computed snapshot run traversal tree) :
    tree.Edge (.of run snapshot traversal) = tree.postorder.Edge (.of run snapshot traversal) := by
  funext a b
  exact propext (DominatorTree.edge_iff (exists_index hf ht hc).1)

/-- The stage reads the sizes while they are still the objects' own. -/
theorem sizeUnits_object (hf : fresh.IsFresh) (ht : Traversed snapshot.graph fresh run traversal)
    (hc : Computed snapshot run traversal tree) {q : Nat} (h0 : 0 < q) (hq : q < tree.superRoot) :
    run.sizeUnits (tree.objects.get q) = sizeInUnits (snapshot.graph.sizeOf (tree.objects.get q)) := by
  obtain ⟨hn, -⟩ := exists_index hf ht hc
  obtain ⟨w, segment, held, hinv, -, rfl, -⟩ := exists_walk hf ht
  have hnumber : tree.numbers.get (tree.objects.get q) = q := hn.number_object q h0 hq
  refine hinv.sizeUnits_eq (hn.visited _ ?_)
  change tree.numbers.get (tree.objects.get q) ≠ 0
  omega

/-- A node holds the sizes of all nodes on whose chains it lies. -/
theorem retainedUnits_eq (hf : fresh.IsFresh) (ht : Traversed snapshot.graph fresh run traversal)
    (hc : Computed snapshot run traversal tree)
    (hlimit : 1 ≤ fresh.config.dominator.maxDominatorIterations) {p : Nat} (h0 : 0 < p)
    (hp : p ≤ tree.superRoot) :
    min wordMax (tree.retainedUnits p) = min wordMax
      (sumBelow tree.superRoot (fun q => sizeInUnits (snapshot.graph.sizeOf (tree.objects.get q)))
        fun q => OnChain tree.idoms.get q p) := by
  obtain ⟨-, -, -, -, -, -, hretained⟩ := exists_index hf ht hc
  obtain ⟨hsound, hknown⟩ := settled_of_computed hf ht hc hlimit
  unfold DominatorTree.retainedUnits
  rw [if_pos hp, hretained, retained_compute hsound.forest hknown h0 hp]
  exact congrArg (min wordMax) (sumBelow_congr_size fun q hq0 hq => sizeUnits_object hf ht hc hq0 hq)

/-- Whatever dominates a node is met on the way up from it, and the node retains what it dominates. Both
hold however early the passes end. -/
theorem dominators_met (hf : fresh.IsFresh) (ht : Traversed snapshot.graph fresh run traversal)
    (hc : Computed snapshot run traversal tree)
    (hlimit : 1 ≤ fresh.config.dominator.maxDominatorIterations) {p : Nat} (h0 : 0 < p)
    (hp : p < tree.superRoot) :
    (∀ d, d ≠ p → Dominates (tree.Edge (.of run snapshot traversal)) tree.superRoot d p → tree.Climbs p d) ∧
      min wordMax (sumBelow tree.superRoot
        (fun q => sizeInUnits (snapshot.graph.sizeOf (tree.objects.get q)))
        (Dominates (tree.Edge (.of run snapshot traversal)) tree.superRoot p)) ≤ tree.retainedUnits p := by
  have hretained := retainedUnits_eq hf ht hc hlimit h0 (Nat.le_of_lt hp)
  obtain ⟨hsound, hknown⟩ := settled_of_computed hf ht hc hlimit
  rw [edge_eq hf ht hc]
  constructor
  · intro d _ hd
    have hk := hknown p (Nat.zero_le p) h0 hp
    rw [DominatorTree.climbs_iff hsound.forest (Nat.le_of_lt hp) hk]
    exact hsound.onChain_of_dominates (Nat.le_of_lt hp) hk hd
  · have hle : sumBelow tree.superRoot
        (fun q => sizeInUnits (snapshot.graph.sizeOf (tree.objects.get q)))
        (Dominates (tree.postorder.Edge (.of run snapshot traversal)) tree.superRoot p) ≤
          sumBelow tree.superRoot (fun q => sizeInUnits (snapshot.graph.sizeOf (tree.objects.get q)))
            (fun q => OnChain tree.idoms.get q p) := by
      refine sumBelow_mono fun q hq0 hq hd => ?_
      exact hsound.onChain_of_dominates (Nat.le_of_lt hq) (hknown q (Nat.zero_le q) hq0 hq) hd
    omega

/-- A heap in which references cross: the passes end at a list that has an idom too low. -/
def crossedHeap : HeapGraph where
  classes := .ofList [{ name := "Node" }]
  objects := #[
    { classId := 1, size := 4, references := [6, 2] },
    { classId := 1, size := 4, references := [5, 3] },
    { classId := 1, size := 4, references := [4, 6] },
    { classId := 1, size := 4, references := [5] },
    { classId := 1, size := 4 },
    { classId := 1, size := 4, references := [3] }]
  roots := [{ id := 1 }]

def crossedRun : Run where
  config := {}
  objectCount := 6
  parents := .create 8
  sizes := .create 8
  visited := .create 8
  roles := .create 8

theorem crossedRun_isFresh : crossedRun.IsFresh :=
  ⟨{}, 6, none, { available := .ok 1000 }, rfl⟩

def crossedVisits : Run :=
  (crossedRun.traverse crossedHeap [] {}).run

set_option maxRecDepth 10000 in
theorem exists_crossed : ∃ traversal tree, Traversed crossedHeap crossedRun crossedVisits traversal ∧
    Computed { graph := crossedHeap } crossedVisits traversal tree ∧
    tree.superRoot = 7 ∧ tree.stats.lastChanged = 0 ∧
    (List.range' 1 6).map tree.immediateDominator? = [some 6, some 5, some 4, some 6, some 6, some 7] ∧
    (List.range' 1 6).map tree.node? = [some 6, some 5, some 4, some 3, some 2, some 1] ∧
    (FlowGraph.of crossedVisits { graph := crossedHeap } traversal).roots = [1] ∧
    (List.range' 1 6).map (FlowGraph.of crossedVisits { graph := crossedHeap } traversal).targets =
      [[6, 2], [5, 3], [4, 6], [5], [], [3]] :=
  exists_computed crossedRun { graph := crossedHeap } { available := .ok 1000 } _ (by decide +kernel)

theorem dominators_met_crossedHeap : crossedRun.IsFresh ∧ ∃ traversal tree,
    Traversed crossedHeap crossedRun crossedVisits traversal ∧
    Computed { graph := crossedHeap } crossedVisits traversal tree ∧
    1 ≤ crossedRun.config.dominator.maxDominatorIterations ∧ 0 < 2 ∧ 2 < tree.superRoot ∧
    (∀ d, d ≠ 2 →
      Dominates (tree.Edge (.of crossedVisits { graph := crossedHeap } traversal)) tree.superRoot d 2 →
        tree.Climbs 2 d) ∧
    min wordMax (sumBelow tree.superRoot (fun q => sizeInUnits (crossedHeap.sizeOf (tree.objects.get q)))
      (Dominates (tree.Edge (.of crossedVisits { graph := crossedHeap } traversal)) tree.superRoot 2)) ≤
        tree.retainedUnits 2 := by
  obtain ⟨traversal, tree, ht, hc, hroot, -⟩ := exists_crossed
  have hlimit : 1 ≤ crossedRun.config.dominator.maxDominatorIterations := by decide
  have hlt : 2 < tree.superRoot := by
    rw [hroot]
    decide
  have hmet := @dominators_met { graph := crossedHeap } _ _ _ _ crossedRun_isFresh ht hc hlimit 2
    (by decide) hlt
  exact ⟨crossedRun_isFresh, traversal, tree, ht, hc, hlimit, by decide, hlt, hmet⟩

end HeapRetention
