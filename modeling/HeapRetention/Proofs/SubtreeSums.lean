import HeapRetention.Proofs.DominatorsMet

/-! Retained sizes as subtree sums. A node retains the own sizes of those nodes from which immediate
dominators lead to it, itself among them, cut off at a full word; so sizes grow on the way up, and the super
root has the total. -/
namespace HeapRetention

/-- The own size of the object of a node. -/
def DominatorTree.ownUnits (tree : DominatorTree) (run : Run) (node : Nat) : Nat :=
  ((tree.objectAt? node).map run.sizeUnits).getD 0

theorem sizeInUnits_le {bytes : Nat} (h : bytes ≤ wordMax) : sizeInUnits bytes ≤ wordMax := by
  unfold sizeInUnits wordMax at *
  omega

variable {snapshot : Snapshot} {fresh run : Run} {traversal : Traversal} {tree : DominatorTree}

section
variable (hf : fresh.IsFresh) (ht : Traversed snapshot.graph fresh run traversal)
  (hc : Computed snapshot run traversal tree)
include hf ht hc

theorem ownUnits_eq {q : Nat} (h0 : 0 < q) (hq : q < tree.superRoot) :
    tree.ownUnits run q = sizeInUnits (snapshot.graph.sizeOf (tree.objects.get q)) := by
  unfold DominatorTree.ownUnits DominatorTree.objectAt?
  rw [if_pos ⟨by omega, hq⟩, Option.map_some, Option.getD_some]
  exact sizeUnits_object hf ht hc h0 hq

theorem retainedUnits_le (p : Nat) : tree.retainedUnits p ≤ wordMax := by
  obtain ⟨-, -, -, -, -, -, hretained⟩ := exists_index hf ht hc
  unfold DominatorTree.retainedUnits
  split
  · rw [hretained]
    refine retained_le (fun b hb0 hb => ?_) p
    have hsize := sizeUnits_object hf ht hc hb0 hb
    exact hsize.trans_le (sizeInUnits_le (snapshot.graph.sizeOf_le _))
  · exact Nat.zero_le _

theorem retainedUnits_eq_sum (hlimit : 1 ≤ fresh.config.dominator.maxDominatorIterations) {p : Nat}
    (h0 : 0 < p) (hp : p ≤ tree.superRoot) :
    tree.retainedUnits p =
      min wordMax (sumBelow tree.superRoot (tree.ownUnits run) fun q => tree.Climbs q p) := by
  obtain ⟨hsound, hknown⟩ := settled_of_computed hf ht hc hlimit
  have hclimbs : ∀ q, 0 < q → q < tree.superRoot → (tree.Climbs q p ↔ OnChain tree.idoms.get q p) :=
    fun q hq0 hq => DominatorTree.climbs_iff hsound.forest (Nat.le_of_lt hq)
      (hknown q (Nat.zero_le q) hq0 hq)
  calc tree.retainedUnits p = min wordMax (tree.retainedUnits p) :=
        (Nat.min_eq_right (retainedUnits_le hf ht hc p)).symm
    _ = min wordMax (sumBelow tree.superRoot
          (fun q => sizeInUnits (snapshot.graph.sizeOf (tree.objects.get q)))
          fun q => OnChain tree.idoms.get q p) := retainedUnits_eq hf ht hc hlimit h0 hp
    _ = min wordMax (sumBelow tree.superRoot (tree.ownUnits run) fun q => OnChain tree.idoms.get q p) :=
        congrArg (min wordMax) (sumBelow_congr_size fun q hq0 hq => (ownUnits_eq hf ht hc hq0 hq).symm)
    _ = min wordMax (sumBelow tree.superRoot (tree.ownUnits run) fun q => tree.Climbs q p) :=
        congrArg (min wordMax) (sumBelow_congr fun q hq0 hq => (hclimbs q hq0 hq).symm)

/-- Every node leads to the super root, which therefore retains the total. -/
theorem retainedUnits_superRoot (hlimit : 1 ≤ fresh.config.dominator.maxDominatorIterations) :
    tree.retainedUnits tree.superRoot =
      min wordMax (sumBelow tree.superRoot (tree.ownUnits run) fun _ => True) := by
  obtain ⟨hsound, hknown⟩ := settled_of_computed hf ht hc hlimit
  rw [retainedUnits_eq_sum hf ht hc hlimit hsound.forest.root_pos (Nat.le_refl _)]
  refine congrArg (min wordMax) (sumBelow_congr fun q hq0 hq => iff_true_intro ?_)
  have hk := hknown q (Nat.zero_le q) hq0 hq
  rw [DominatorTree.climbs_iff hsound.forest (Nat.le_of_lt hq) hk]
  exact hsound.forest.reaches_root (Nat.le_of_lt hq) hk

theorem ownUnits_le_retainedUnits (hlimit : 1 ≤ fresh.config.dominator.maxDominatorIterations) {q : Nat}
    (h0 : 0 < q) (hq : q < tree.superRoot) : tree.ownUnits run q ≤ tree.retainedUnits q := by
  rw [retainedUnits_eq_sum hf ht hc hlimit h0 (Nat.le_of_lt hq)]
  apply Nat.le_min.mpr
  constructor
  · exact (ownUnits_eq hf ht hc h0 hq).trans_le (sizeInUnits_le (snapshot.graph.sizeOf_le _))
  · calc tree.ownUnits run q = sumBelow tree.superRoot (tree.ownUnits run) (fun a => a = q) :=
          (sumBelow_single h0 hq).symm
      _ ≤ sumBelow tree.superRoot (tree.ownUnits run) (fun a => tree.Climbs a q) := by
          refine sumBelow_mono fun a _ _ ha => ?_
          rw [ha]
          exact Relation.ReflTransGen.refl

/-- Whatever leads to a node leads on to its immediate dominator. -/
theorem retainedUnits_le_dominator (hlimit : 1 ≤ fresh.config.dominator.maxDominatorIterations)
    {p d : Nat} (h0 : 0 < p) (hp : p ≤ tree.superRoot) (hd : tree.immediateDominator? p = some d) :
    tree.retainedUnits p ≤ tree.retainedUnits d := by
  obtain ⟨hsound, hknown⟩ := settled_of_computed hf ht hc hlimit
  have hk : tree.idoms.get p ≠ 0 := by
    rcases Nat.eq_or_lt_of_le hp with rfl | hlt
    · exact hsound.forest.root_known
    · exact hknown p (Nat.zero_le p) h0 hlt
  obtain ⟨hpd, hdr, -⟩ := hsound.forest.of_onChain hp hk (onChain_self _ _).below
  have hidom : tree.idoms.get p = d := by
    unfold DominatorTree.immediateDominator? at hd
    rwa [if_pos ⟨by omega, hp⟩, Option.some.injEq] at hd
  rw [hidom] at hpd hdr
  rw [retainedUnits_eq_sum hf ht hc hlimit h0 hp, retainedUnits_eq_sum hf ht hc hlimit (by omega) hdr]
  have hmono := @sumBelow_mono tree.superRoot (tree.ownUnits run) (fun q => tree.Climbs q p)
    (fun q => tree.Climbs q d) fun q _ _ hq => hq.tail hd
  omega

/-- The retained size of a node is the sum over its subtree. The super root retains everything there is, a
node at least its own object, and an immediate dominator no less than its node. -/
theorem retained_subtree (hlimit : 1 ≤ fresh.config.dominator.maxDominatorIterations) :
    (∀ p, 0 < p → p ≤ tree.superRoot → tree.retainedUnits p =
      min wordMax (sumBelow tree.superRoot (tree.ownUnits run) fun q => tree.Climbs q p)) ∧
    tree.retainedUnits tree.superRoot =
      min wordMax (sumBelow tree.superRoot (tree.ownUnits run) fun _ => True) ∧
    (∀ q, 0 < q → q < tree.superRoot → ∃ id, tree.objectAt? q = some id ∧ tree.node? id = some q ∧
      tree.ownUnits run q = sizeInUnits (snapshot.graph.sizeOf id) ∧
      run.sizeUnits id ≤ tree.retainedUnits q) ∧
    ∀ p d, 0 < p → p ≤ tree.superRoot → tree.immediateDominator? p = some d →
      tree.retainedUnits p ≤ tree.retainedUnits d := by
  refine ⟨fun p => retainedUnits_eq_sum hf ht hc hlimit, retainedUnits_superRoot hf ht hc hlimit,
    fun q h0 hq => ?_, fun p d => retainedUnits_le_dominator hf ht hc hlimit⟩
  obtain ⟨hn, -⟩ := exists_index hf ht hc
  have hnumber : tree.numbers.get (tree.objects.get q) = q := hn.number_object q h0 hq
  have hobject : tree.objectAt? q = some (tree.objects.get q) := if_pos ⟨by omega, hq⟩
  have hown : tree.ownUnits run q = run.sizeUnits (tree.objects.get q) := by
    rw [DominatorTree.ownUnits, hobject, Option.map_some, Option.getD_some]
  refine ⟨_, hobject, ?_, ownUnits_eq hf ht hc h0 hq, ?_⟩
  · exact (DominatorTree.node?_eq_some_iff hn).mpr ⟨hnumber, by omega⟩
  · exact hown.symm.trans_le (ownUnits_le_retainedUnits hf ht hc hlimit h0 hq)

end

theorem retained_subtree_crossedHeap : crossedRun.IsFresh ∧ ∃ traversal tree,
    Traversed crossedHeap crossedRun crossedVisits traversal ∧
    Computed { graph := crossedHeap } crossedVisits traversal tree ∧
    1 ≤ crossedRun.config.dominator.maxDominatorIterations ∧
    (∀ p, 0 < p → p ≤ tree.superRoot → tree.retainedUnits p =
      min wordMax (sumBelow tree.superRoot (tree.ownUnits crossedVisits) fun q => tree.Climbs q p)) ∧
    tree.retainedUnits tree.superRoot =
      min wordMax (sumBelow tree.superRoot (tree.ownUnits crossedVisits) fun _ => True) ∧
    (∀ q, 0 < q → q < tree.superRoot → ∃ id, tree.objectAt? q = some id ∧ tree.node? id = some q ∧
      tree.ownUnits crossedVisits q = sizeInUnits (crossedHeap.sizeOf id) ∧
      crossedVisits.sizeUnits id ≤ tree.retainedUnits q) ∧
    ∀ p d, 0 < p → p ≤ tree.superRoot → tree.immediateDominator? p = some d →
      tree.retainedUnits p ≤ tree.retainedUnits d := by
  obtain ⟨traversal, tree, ht, hc, -⟩ := exists_crossed
  have hlimit : 1 ≤ crossedRun.config.dominator.maxDominatorIterations := by decide
  exact ⟨crossedRun_isFresh, traversal, tree, ht, hc, hlimit,
    @retained_subtree { graph := crossedHeap } _ _ _ _ crossedRun_isFresh ht hc hlimit⟩

end HeapRetention
