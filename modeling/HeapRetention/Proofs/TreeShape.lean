import HeapRetention.Proofs.DominatorsMet

/-! The shape of the dominator tree, at whatever limit the passes end. Immediate dominators have larger
numbers, so taking them again and again leads up to the super root. The idom list has this shape after every
visit of every pass; only nodes that the first pass has yet to come to lack an idom. -/
namespace HeapRetention

/-- The known entries of an idom list are larger than their nodes and lead to the super root. -/
def LeadsToRoot (idoms : Slots) (root : Nat) : Prop :=
  idoms.get root = root ∧ ∀ p < root, idoms.get p ≠ 0 →
    p < idoms.get p ∧ idoms.get p ≤ root ∧ OnChain idoms.get p root

theorem IsForest.leadsToRoot {idoms : Slots} {root : Nat} (h : IsForest idoms root) :
    LeadsToRoot idoms root := by
  refine ⟨h.root_self, fun p hp hk => ?_⟩
  obtain ⟨hup, htop⟩ := h.climbs p hp hk
  exact ⟨hup, htop, h.reaches_root (Nat.le_of_lt hp) hk⟩

/-- The visits that made the idom list of a tree: those of the first pass, and those of the passes after
it. -/
structure DominatorTree.MadeBy (tree : DominatorTree) (x : EdgeIndex) (limit : Nat) (first : List Nat)
    (later : List (List Nat)) : Prop where
  schedules : Fixpoint.schedules x tree.superRoot limit (.start tree.superRoot) = first :: later
  iterations : tree.stats.iterations = later.length + 1
  idoms : tree.idoms = Fixpoint.idomsAfter x tree.superRoot (first ++ later.flatten)

variable {snapshot : Snapshot} {fresh run : Run} {traversal : Traversal} {tree : DominatorTree}

theorem exists_madeBy (hf : fresh.IsFresh) (ht : Traversed snapshot.graph fresh run traversal)
    (hc : Computed snapshot run traversal tree)
    (hlimit : 1 ≤ fresh.config.dominator.maxDominatorIterations) :
    ∃ x, EdgeIndex.ofGraph (.of run snapshot traversal) tree.postorder (.covering tree.superRoot) = .ok x ∧
      x.Describes (tree.postorder.Edge (.of run snapshot traversal)) tree.superRoot ∧
      ∃ later, tree.MadeBy x fresh.config.dominator.maxDominatorIterations
        ((Fixpoint.start tree.superRoot).passSchedule x tree.superRoot) later := by
  obtain ⟨-, x, hindex, hx, hidoms, hpasses, -⟩ := exists_index hf ht hc
  obtain ⟨later, hlater⟩ := Fixpoint.schedules_eq_cons x tree.superRoot (.start tree.superRoot) hlimit
  refine ⟨x, hindex, hx, later, hlater, ?_, ?_⟩
  · rw [hpasses, ← Fixpoint.length_schedules, hlater, List.length_cons]
  · rw [hidoms, Fixpoint.idoms_solve, hlater]
    rfl

/-- Every node has an immediate dominator with a larger number, and from every node immediate dominators
lead to the super root, which is its own. The list that they are read from is like that after every single
visit, and it lacks no idom from the end of the first pass on. -/
theorem immediateDominators_wellFormed (hf : fresh.IsFresh)
    (ht : Traversed snapshot.graph fresh run traversal) (hc : Computed snapshot run traversal tree)
    (hlimit : 1 ≤ fresh.config.dominator.maxDominatorIterations) :
    (∀ p, 0 < p → p < tree.superRoot → ∃ d, tree.immediateDominator? p = some d ∧ p < d ∧
      d ≤ tree.superRoot ∧ tree.Climbs p tree.superRoot) ∧
    tree.immediateDominator? tree.superRoot = some tree.superRoot ∧
    ∃ x, EdgeIndex.ofGraph (.of run snapshot traversal) tree.postorder (.covering tree.superRoot) = .ok x ∧
      ∃ first later, tree.MadeBy x fresh.config.dominator.maxDominatorIterations first later ∧
        ∀ done, done <+: first ++ later.flatten →
          LeadsToRoot (Fixpoint.idomsAfter x tree.superRoot done) tree.superRoot ∧
          (first <+: done → ∀ p, 0 < p → p < tree.superRoot →
            (Fixpoint.idomsAfter x tree.superRoot done).get p ≠ 0) := by
  obtain ⟨hsound, hknown⟩ := settled_of_computed hf ht hc hlimit
  have hforest := hsound.forest
  obtain ⟨x, hindex, hx, later, hmade⟩ := exists_madeBy hf ht hc hlimit
  refine ⟨fun p h0 hp => ?_, ?_, x, hindex, _, later, hmade, fun done hdone => ⟨?_, ?_⟩⟩
  · have hk := hknown p (Nat.zero_le p) h0 hp
    obtain ⟨hup, htop, hchain⟩ := hforest.leadsToRoot.2 p hp hk
    refine ⟨tree.idoms.get p, if_pos ⟨by omega, Nat.le_of_lt hp⟩, hup, htop, ?_⟩
    exact (DominatorTree.climbs_iff hforest (Nat.le_of_lt hp) hk).mpr hchain
  · have hpos := hforest.root_pos
    calc tree.immediateDominator? tree.superRoot = some (tree.idoms.get tree.superRoot) :=
          if_pos ⟨by omega, Nat.le_refl _⟩
      _ = some tree.superRoot := congrArg some hforest.root_self
  · exact (isSound_idomsAfter hx hforest.root_pos hdone).forest.leadsToRoot
  · intro hfirst p h0 hp
    exact (settled_idomsAfter hx hforest.root_pos hfirst).2 p (Nat.zero_le p) h0 hp

theorem immediateDominators_crossedHeap : crossedRun.IsFresh ∧ ∃ traversal tree,
    Traversed crossedHeap crossedRun crossedVisits traversal ∧
    Computed { graph := crossedHeap } crossedVisits traversal tree ∧
    1 ≤ crossedRun.config.dominator.maxDominatorIterations ∧
    (List.range' 1 6).map tree.immediateDominator? = [some 6, some 5, some 4, some 6, some 6, some 7] ∧
    (∀ p, 0 < p → p < tree.superRoot → ∃ d, tree.immediateDominator? p = some d ∧ p < d ∧
      d ≤ tree.superRoot ∧ tree.Climbs p tree.superRoot) ∧
    tree.immediateDominator? tree.superRoot = some tree.superRoot ∧
    ∃ x, EdgeIndex.ofGraph (.of crossedVisits { graph := crossedHeap } traversal) tree.postorder
        (.covering tree.superRoot) = .ok x ∧
      ∃ first later, tree.MadeBy x crossedRun.config.dominator.maxDominatorIterations first later ∧
        ∀ done, done <+: first ++ later.flatten →
          LeadsToRoot (Fixpoint.idomsAfter x tree.superRoot done) tree.superRoot ∧
          (first <+: done → ∀ p, 0 < p → p < tree.superRoot →
            (Fixpoint.idomsAfter x tree.superRoot done).get p ≠ 0) := by
  obtain ⟨traversal, tree, ht, hc, -, -, hidoms, -⟩ := exists_crossed
  have hlimit : 1 ≤ crossedRun.config.dominator.maxDominatorIterations := by decide
  exact ⟨crossedRun_isFresh, traversal, tree, ht, hc, hlimit, hidoms,
    @immediateDominators_wellFormed { graph := crossedHeap } _ _ _ _ crossedRun_isFresh ht hc hlimit⟩

end HeapRetention
