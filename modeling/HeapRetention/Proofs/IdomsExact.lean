import HeapRetention.Proofs.DominatorsMet

/-! When the immediate dominators are exact. A local test decides it: along every edge the idom of the end
lies on the chain of the start. This holds exactly if no visit would change the list any more, whether its
node is on a dirty card or not; that the passes end does not say so, for they pass over clean cards. -/
namespace HeapRetention

/-- Along every edge the idom of the end is met on the way up from the start. -/
def Certified (edge : Nat → Nat → Prop) (idoms : Slots) : Prop :=
  ∀ u p, edge u p → OnChain idoms.get u (idoms.get p)

section
variable {edge : Nat → Nat → Prop} {root : Nat} {idoms : Slots} {x : EdgeIndex} {node p d : Nat}

/-- With the certificate every node of a chain lies on every trail to where the chain starts. -/
theorem Certified.dominates (h : Certified edge idoms) (hroot : IsForest idoms root)
    (hd : OnChain idoms.get p d) : Dominates edge root d p := by
  intro l hl
  induction hl generalizing d with
  | start =>
    obtain ⟨hge, hle, -⟩ := hroot.of_onChain (Nat.le_refl root) hroot.root_known hd
    rw [Nat.le_antisymm hle hge]
    exact List.mem_cons_self
  | @step l a b _ hab ih =>
    rcases onChain_iff.mp hd with rfl | hup
    · exact List.mem_cons_self
    · exact List.mem_cons_of_mem b (ih ((h a b hab).trans hup))

/-- With the certificate the idom of a node is its immediate dominator. -/
theorem Certified.isImmediateDominator (h : Certified edge idoms) (hs : IsSound edge root idoms)
    (hp : p < root) (hk : idoms.get p ≠ 0) : IsImmediateDominator edge root (idoms.get p) p :=
  (hs.candidate p hp hk).isImmediateDominator (h.dominates hs.forest (onChain_self _ _).below)

/-- The idom of the end of an edge dominates its start, so it is met from there. -/
theorem IsSound.onChain_of_isImmediateDominator (hs : IsSound edge root idoms) {u : Nat} (hu : u ≤ root)
    (hk : idoms.get u ≠ 0) (he : edge u p) (hd : IsImmediateDominator edge root d p) :
    OnChain idoms.get u d :=
  hs.onChain_of_dominates hu hk (dominates_pred he hd.dominates hd.ne)

/-- A node that dominates all predecessors of another one dominates that one. -/
theorem dominates_of_preds (hne : p ≠ root) (h : ∀ u, edge u p → Dominates edge root d u) :
    Dominates edge root d p := by
  intro l hl
  cases hl with
  | start => exact absurd rfl hne
  | step ha hab => exact List.mem_cons_of_mem p (h _ hab _ ha)

theorem update_idoms_eq {f : Fixpoint} (h : Fixpoint.proposal x root f.idoms node = f.idoms.get node) :
    (f.update x root node).idoms = f.idoms := by
  unfold Fixpoint.proposal at h
  unfold Fixpoint.update
  cases hinc : x.incoming node with
  | nil => rfl
  | cons p rest =>
    rw [hinc] at h
    dsimp only at h ⊢
    rw [if_pos h]

/-- With the certificate the predecessors of a node propose its idom. -/
theorem Certified.proposal_eq (h : Certified edge idoms) (hx : x.Describes edge root)
    (hs : IsSound edge root idoms) (hall : KnownFrom idoms root 0) (h0 : 0 < node) (hn : node < root) :
    Fixpoint.proposal x root idoms node = idoms.get node := by
  have hk := hall node (Nat.zero_le node) h0 hn
  have hlater : KnownFrom idoms root (node + 1) := hall.mono (Nat.zero_le _)
  have hproposed := proposal_candidate hx hs h0 hn hlater
  obtain ⟨-, -, hcommon, -⟩ := proposal_meets hx hs.forest h0 hn hlater
  have hidom := h.isImmediateDominator hs hn hk
  refine Nat.le_antisymm (hproposed.le_dominator _ hidom.ne hidom.dominates) ?_
  refine (hs.candidate node hn hk).le_dominator _ (Nat.ne_of_gt hproposed.above) ?_
  refine dominates_of_preds (Nat.ne_of_lt hn) fun u hu => h.dominates hs.forest (hcommon u hu ?_)
  obtain ⟨hu0, hur⟩ := hx.bounds node h0 hn u hu
  exact hall.of_le_root hs.forest (Nat.zero_le u) hu0 hur

/-- No visit changes a list exactly if the list has the certificate. -/
theorem certified_iff_visit (hx : x.Describes edge root) (hs : IsSound edge root idoms)
    (hall : KnownFrom idoms root 0) (hnode : ∀ u p, edge u p → 0 < p ∧ p < root) :
    Certified edge idoms ↔ ∀ cards counts node, 0 < node → node < root →
      ((⟨idoms, cards, counts⟩ : Fixpoint).visit x root node).idoms = idoms := by
  constructor
  · intro h cards counts node h0 hn
    unfold Fixpoint.visit
    split
    · rfl
    · exact update_idoms_eq (h.proposal_eq hx hs hall h0 hn)
  · intro h u p he
    obtain ⟨h0, hp⟩ := hnode u p he
    obtain ⟨hu0, hu⟩ := hx.bounds p h0 hp u he
    have hku : idoms.get u ≠ 0 := hall.of_le_root hs.forest (Nat.zero_le u) hu0 hu
    by_cases htop : idoms.get p = root
    · rw [htop]
      exact hs.forest.reaches_root hu hku
    -- a visit that changes nothing has found the idom where the chains of all predecessors meet
    · have hlater : KnownFrom idoms root (p + 1) := hall.mono (Nat.zero_le _)
      have hskip : ¬(p = 0 ∨ root ≤ p ∨ idoms.get p = root) := by
        rintro (hz | hz | hz) <;> omega
      have hupdate : ((⟨idoms, .covering root, {}⟩ : Fixpoint).update x root p).idoms = idoms :=
        (congrArg Fixpoint.idoms (if_neg hskip)).symm.trans (h (.covering root) {} p h0 hp)
      have hroom : p < (⟨idoms, .covering root, {}⟩ : Fixpoint).idoms.capacity :=
        Nat.lt_trans hp hs.forest.room
      have hget : Fixpoint.proposal x root idoms p = idoms.get p := by
        rw [← congrArg (fun s => s.get p) hupdate]
        exact ((Fixpoint.get_update hroom p).trans (if_pos rfl)).symm
      obtain ⟨-, -, hcommon, -⟩ := proposal_meets hx hs.forest h0 hp hlater
      rw [← hget]
      exact hcommon u he hku

end

variable {snapshot : Snapshot} {fresh run : Run} {traversal : Traversal} {tree : DominatorTree}

/-- The tree gives every node its immediate dominator in the flow graph. -/
def DominatorTree.IsExact (tree : DominatorTree) (g : FlowGraph) : Prop :=
  ∀ p, 0 < p → p < tree.superRoot → ∃ d, tree.immediateDominator? p = some d ∧
    IsImmediateDominator (tree.Edge g) tree.superRoot d p

theorem DominatorTree.immediateDominator?_eq {p : Nat} (h0 : 0 < p) (hp : p < tree.superRoot) :
    tree.immediateDominator? p = some (tree.idoms.get p) :=
  if_pos ⟨Nat.pos_iff_ne_zero.mp h0, Nat.le_of_lt hp⟩

section
variable (hf : fresh.IsFresh) (ht : Traversed snapshot.graph fresh run traversal)
  (hc : Computed snapshot run traversal tree)
  (hlimit : 1 ≤ fresh.config.dominator.maxDominatorIterations)
include hf ht hc hlimit

/-- Every edge starts at a node that has an idom, or at the super root. -/
theorem known_of_edge {u p : Nat} (he : tree.postorder.Edge (.of run snapshot traversal) u p) :
    u ≤ tree.superRoot ∧ tree.idoms.get u ≠ 0 := by
  obtain ⟨hn, x, -, hx, -, -⟩ := exists_index hf ht hc
  obtain ⟨hs, hall⟩ := settled_of_computed hf ht hc hlimit
  obtain ⟨h0, hp⟩ := hn.edge_bounds he
  obtain ⟨hu0, hu⟩ := hx.bounds p h0 hp u he
  exact ⟨hu, KnownFrom.of_le_root hall hs.forest (Nat.zero_le u) hu0 hu⟩

theorem isExact_iff_certified : tree.IsExact (.of run snapshot traversal) ↔
    Certified (tree.postorder.Edge (.of run snapshot traversal)) tree.idoms := by
  obtain ⟨hn, -⟩ := exists_index hf ht hc
  obtain ⟨hs, hall⟩ := settled_of_computed hf ht hc hlimit
  unfold DominatorTree.IsExact
  rw [edge_eq hf ht hc]
  constructor
  · intro h u p he
    obtain ⟨h0, hp⟩ := hn.edge_bounds he
    obtain ⟨hu, hk⟩ := known_of_edge hf ht hc hlimit he
    obtain ⟨d, hd, himm⟩ := h p h0 hp
    rw [DominatorTree.immediateDominator?_eq h0 hp] at hd
    cases hd
    exact hs.onChain_of_isImmediateDominator hu hk he himm
  · intro h p h0 hp
    refine ⟨_, DominatorTree.immediateDominator?_eq h0 hp, ?_⟩
    exact h.isImmediateDominator hs hp (hall p (Nat.zero_le p) h0 hp)

theorem certified_iff_climbs : Certified (tree.postorder.Edge (.of run snapshot traversal)) tree.idoms ↔
    ∀ u p d, tree.Edge (.of run snapshot traversal) u p → tree.immediateDominator? p = some d →
      tree.Climbs u d := by
  obtain ⟨hn, -⟩ := exists_index hf ht hc
  obtain ⟨hs, -⟩ := settled_of_computed hf ht hc hlimit
  rw [edge_eq hf ht hc]
  constructor
  · intro h u p d he hd
    obtain ⟨h0, hp⟩ := hn.edge_bounds he
    obtain ⟨hu, hk⟩ := known_of_edge hf ht hc hlimit he
    rw [DominatorTree.immediateDominator?_eq h0 hp] at hd
    cases hd
    exact (DominatorTree.climbs_iff hs.forest hu hk).mpr (h u p he)
  · intro h u p he
    obtain ⟨h0, hp⟩ := hn.edge_bounds he
    obtain ⟨hu, hk⟩ := known_of_edge hf ht hc hlimit he
    have hclimbs := h u p _ he (DominatorTree.immediateDominator?_eq h0 hp)
    exact (DominatorTree.climbs_iff hs.forest hu hk).mp hclimbs

end

/-- The immediate dominators are exact if and only if along every edge that of the end is met on the way
up from the start, and if and only if no visit, to whatever node, would change them any more. -/
theorem isExact_iff (hf : fresh.IsFresh) (ht : Traversed snapshot.graph fresh run traversal)
    (hc : Computed snapshot run traversal tree)
    (hlimit : 1 ≤ fresh.config.dominator.maxDominatorIterations) :
    (tree.IsExact (.of run snapshot traversal) ↔
      ∀ u p d, tree.Edge (.of run snapshot traversal) u p → tree.immediateDominator? p = some d →
        tree.Climbs u d) ∧
    (tree.IsExact (.of run snapshot traversal) ↔
      ∀ x, EdgeIndex.ofGraph (.of run snapshot traversal) tree.postorder (.covering tree.superRoot) = .ok x →
        ∀ cards counts p, 0 < p → p < tree.superRoot →
          ((⟨tree.idoms, cards, counts⟩ : Fixpoint).visit x tree.superRoot p).idoms = tree.idoms) := by
  obtain ⟨hn, x, hindex, hx, -, -⟩ := exists_index hf ht hc
  obtain ⟨hs, hall⟩ := settled_of_computed hf ht hc hlimit
  have hexact := isExact_iff_certified hf ht hc hlimit
  refine ⟨hexact.trans (certified_iff_climbs hf ht hc hlimit), hexact.trans ?_⟩
  rw [certified_iff_visit hx hs hall fun _ _ he => hn.edge_bounds he]
  constructor
  · intro h y hy
    rw [show y = x from Except.ok.inj (hy.symm.trans hindex)]
    exact h
  · exact fun h => h x hindex

theorem isExact_iff_crossedHeap : crossedRun.IsFresh ∧ ∃ traversal tree,
    Traversed crossedHeap crossedRun crossedVisits traversal ∧
    Computed { graph := crossedHeap } crossedVisits traversal tree ∧
    1 ≤ crossedRun.config.dominator.maxDominatorIterations ∧
    (tree.IsExact (.of crossedVisits { graph := crossedHeap } traversal) ↔
      ∀ u p d, tree.Edge (.of crossedVisits { graph := crossedHeap } traversal) u p →
        tree.immediateDominator? p = some d → tree.Climbs u d) ∧
    (tree.IsExact (.of crossedVisits { graph := crossedHeap } traversal) ↔
      ∀ x, EdgeIndex.ofGraph (.of crossedVisits { graph := crossedHeap } traversal) tree.postorder
          (.covering tree.superRoot) = .ok x →
        ∀ cards counts p, 0 < p → p < tree.superRoot →
          ((⟨tree.idoms, cards, counts⟩ : Fixpoint).visit x tree.superRoot p).idoms = tree.idoms) := by
  obtain ⟨traversal, tree, ht, hc, -⟩ := exists_crossed
  have hlimit : 1 ≤ crossedRun.config.dominator.maxDominatorIterations := by decide
  exact ⟨crossedRun_isFresh, traversal, tree, ht, hc, hlimit,
    @isExact_iff { graph := crossedHeap } _ _ _ _ crossedRun_isFresh ht hc hlimit⟩

/-- The last pass changes nothing, yet the second node has an idom that a trail to it does not pass. When
the idom of the fourth node rose, the card of the third one was marked, but not that of the second, whose
own predecessor kept its idom. -/
theorem converged_not_exact : crossedRun.IsFresh ∧ ∃ traversal tree,
    Traversed crossedHeap crossedRun crossedVisits traversal ∧
    Computed { graph := crossedHeap } crossedVisits traversal tree ∧
    1 ≤ crossedRun.config.dominator.maxDominatorIterations ∧ tree.stats.lastChanged = 0 ∧
    2 < tree.superRoot ∧ tree.immediateDominator? 2 = some 5 ∧
    ¬Dominates (tree.Edge (.of crossedVisits { graph := crossedHeap } traversal)) tree.superRoot 5 2 ∧
    ¬tree.IsExact (.of crossedVisits { graph := crossedHeap } traversal) := by
  obtain ⟨traversal, tree, ht, hc, hroot, hlast, hidoms, hnodes, hroots, htargets⟩ := exists_crossed
  simp only [List.range', List.map_cons, List.map_nil, List.cons.injEq, and_true] at hidoms hnodes htargets
  obtain ⟨-, hidom, -⟩ := hidoms
  obtain ⟨h1, h2, h3, h4, h5, h6⟩ := hnodes
  obtain ⟨t1, t2, t3, t4, t5, t6⟩ := htargets
  have hedge : ∀ u v a b, tree.node? u = some a → tree.node? v = some b →
      v ∈ (FlowGraph.of crossedVisits { graph := crossedHeap } traversal).targets u →
        tree.Edge (.of crossedVisits { graph := crossedHeap } traversal) a b :=
    fun u v a b hu hv ht => Or.inr ⟨u, hu, v, ht, hv⟩
  have htrail : Trail (tree.Edge (.of crossedVisits { graph := crossedHeap } traversal)) tree.superRoot
      [2, 3, 4, 1, 6, tree.superRoot] 2 := by
    refine .step (.step (.step (.step (.step .start (b := 6) ?_) (b := 1) ?_) (b := 4) ?_) (b := 3) ?_) ?_
    · exact Or.inl ⟨rfl, 1, by rw [hroots]; decide, h1⟩
    · exact hedge 1 6 6 1 h1 h6 (by rw [t1]; decide)
    · exact hedge 6 3 1 4 h6 h3 (by rw [t6]; decide)
    · exact hedge 3 4 4 3 h3 h4 (by rw [t3]; decide)
    · exact hedge 4 5 3 2 h4 h5 (by rw [t4]; decide)
  have hnot : ¬Dominates (tree.Edge (.of crossedVisits { graph := crossedHeap } traversal))
      tree.superRoot 5 2 := by
    intro hd
    have hmem := hd _ htrail
    rw [hroot] at hmem
    exact absurd hmem (by decide)
  refine ⟨crossedRun_isFresh, traversal, tree, ht, hc, by decide, hlast, by rw [hroot]; decide, hidom, hnot,
    ?_⟩
  intro hexact
  obtain ⟨d, hd, himm⟩ := hexact 2 (by decide) (by rw [hroot]; decide)
  rw [hidom] at hd
  cases hd
  exact hnot himm.dominates

end HeapRetention
