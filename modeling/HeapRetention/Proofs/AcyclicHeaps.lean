import HeapRetention.Proofs.ChangedIdoms
import HeapRetention.Proofs.IdomsExact
import HeapRetention.Proofs.RetreatingEdges
import HeapRetention.Proofs.SubtreeSums

/-! Heaps without cycles. All edges go to smaller numbers there, so in the first pass every node comes up
after its predecessors have got their immediate dominators, and gets its own; no later visit changes
anything. -/
namespace HeapRetention

open Fixpoint

/-- Every node from `n` on has its immediate dominator. -/
def ExactFrom (edge : Nat → Nat → Prop) (root : Nat) (idoms : Slots) (n : Nat) : Prop :=
  ∀ p, n ≤ p → 0 < p → p < root → IsImmediateDominator edge root (idoms.get p) p

variable {edge : Nat → Nat → Prop} {root n node u d : Nat} {x : EdgeIndex} {idoms : Slots}

/-- Whatever is met on the way up through exact entries dominates where the way starts. -/
theorem ExactFrom.dominates (h : ExactFrom edge root idoms n) (hforest : IsForest idoms root) (hn : n ≤ u)
    (hu : u ≤ root) (hk : idoms.get u ≠ 0) (hd : OnChain idoms.get u d) : Dominates edge root d u := by
  refine hforest.induction_down
    (P := fun u => n ≤ u → ∀ d, OnChain idoms.get u d → Dominates edge root d u) ?_ ?_ u hu hk hn d hd
  · intro _ d hd
    obtain ⟨hge, hle, -⟩ := hforest.of_onChain (Nat.le_refl root) hforest.root_known hd
    rw [Nat.le_antisymm hle hge]
    exact dominates_self edge root root
  · intro a h0 hlt hk ih hna d hd
    have hup := (hforest.climbs a hlt hk).1
    rcases onChain_iff.mp hd with rfl | hd
    · exact dominates_self edge root a
    · exact (ih (by omega) d hd).trans (h a hna h0 hlt).dominates

/-- A node whose predecessors are all exact gets its immediate dominator. -/
theorem ExactFrom.proposal (h : ExactFrom edge root idoms (node + 1)) (hx : x.Describes edge root)
    (hs : SettledFrom edge root idoms (node + 1)) (hdown : ∀ u p, edge u p → p < u) (h0 : 0 < node)
    (hn : node < root) : IsImmediateDominator edge root (proposal x root idoms node) node := by
  obtain ⟨-, -, hcommon, -⟩ := proposal_meets hx hs.1.forest h0 hn hs.2
  refine (proposal_candidate hx hs.1 h0 hn hs.2).isImmediateDominator ?_
  refine dominates_of_preds (Nat.ne_of_lt hn) fun u hu => ?_
  obtain ⟨hu0, hur⟩ := hx.bounds node h0 hn u hu
  have hk := hs.2.of_le_root hs.1.forest (hdown u node hu) hu0 hur
  exact h.dominates hs.1.forest (hdown u node hu) hur hk (hcommon u hu hk)

theorem ExactFrom.visit (h : ExactFrom edge root idoms (node + 1)) (hx : x.Describes edge root)
    (hs : SettledFrom edge root idoms (node + 1)) (hdown : ∀ u p, edge u p → p < u) :
    ExactFrom edge root (visitIdoms x root idoms node) node := by
  intro p hnp h0 hp
  rcases visitIdoms_cases x hs.1.forest.room node with ⟨hsame, hskip⟩ | ⟨-, -, -, hget, hother⟩
  · rw [hsame]
    by_cases he : p = node
    -- the super root is the immediate dominator of a node that it is a candidate for
    · subst he
      have htop : idoms.get p = root := by omega
      have hcandidate := hs.1.candidate p hp (by omega)
      exact hcandidate.isImmediateDominator (htop ▸ dominates_root edge root p)
    · exact h p (by omega) h0 hp
  · by_cases he : p = node
    · subst he
      rw [hget]
      exact h.proposal hx hs hdown h0 hp
    · rw [hother p he]
      exact h p (by omega) h0 hp

theorem ExactFrom.sweep (hx : x.Describes edge root) (hdown : ∀ u p, edge u p → p < u) {base top : Nat}
    {nodes : List Nat} (hsweep : Sweeps root base top nodes) (hs : SettledFrom edge root idoms top)
    (h : ExactFrom edge root idoms top) :
    ExactFrom edge root (nodes.foldl (visitIdoms x root) idoms) base := by
  induction nodes generalizing top idoms with
  | nil =>
    intro p hbp h0 hp
    refine h p ?_ h0 hp
    by_contra hat
    exact List.not_mem_nil (hsweep.complete p hbp (by omega) hp)
  | cons n nodes ih =>
    obtain ⟨habove, hrest⟩ := hsweep.of_cons
    have hknown : SettledFrom edge root idoms (n + 1) :=
      ⟨hs.1, fun a hna ha0 har => hs.2 a (habove a hna har) ha0 har⟩
    have hexact : ExactFrom edge root idoms (n + 1) :=
      fun p hnp h0 hp => h p (habove p hnp hp) h0 hp
    exact ih hrest (hknown.visit hx) (hexact.visit hx hknown hdown)

/-- The first pass is enough. -/
theorem exact_first_pass (hx : x.Describes edge root) (hroot : 0 < root) (hdown : ∀ u p, edge u p → p < u) :
    ExactFrom edge root (idomsAfter x root ((start root).passSchedule x root)) 0 := by
  obtain ⟨top, htop, hsweep⟩ := sweeps_first_pass x root
  exact ExactFrom.sweep hx hdown hsweep
    ⟨isSound_start edge hroot, fun a hta _ har => absurd (Nat.le_trans htop hta) (Nat.not_le.mpr har)⟩
    fun a hta _ har => absurd (Nat.le_trans htop hta) (Nat.not_le.mpr har)

/-- What the predecessors of an exact node propose is its entry. -/
theorem ExactFrom.certified (h : ExactFrom edge root idoms 0) (hx : x.Describes edge root)
    (hs : SettledFrom edge root idoms 0) (hnode : ∀ u p, edge u p → 0 < p ∧ p < root) :
    Certified edge idoms := by
  intro u p he
  obtain ⟨h0, hp⟩ := hnode u p he
  obtain ⟨hu0, hu⟩ := hx.bounds p h0 hp u he
  have hk := KnownFrom.of_le_root hs.2 hs.1.forest (Nat.zero_le u) hu0 hu
  exact hs.1.onChain_of_isImmediateDominator hu hk he (h p (Nat.zero_le p) h0 hp)

/-- With the certificate visits change nothing and count nothing. -/
theorem Certified.visits (h : Certified edge idoms) (hx : x.Describes edge root)
    (hs : SettledFrom edge root idoms 0) (hnode : ∀ u p, edge u p → 0 < p ∧ p < root) (nodes : List Nat) :
    nodes.foldl (visitIdoms x root) idoms = idoms ∧ changes x root idoms nodes = 0 := by
  induction nodes with
  | nil => exact ⟨rfl, rfl⟩
  | cons node nodes ih =>
    have hsame : visitIdoms x root idoms node = idoms := by
      rcases visitIdoms_cases x hs.1.forest.room node with ⟨hsame, -⟩ | ⟨h0, hn, -⟩
      · exact hsame
      · exact (certified_iff_visit hx hs.1 hs.2 hnode).mp h (.covering root) {} node h0 hn
    rw [List.foldl_cons, changes, hsame, if_pos rfl, Nat.zero_add]
    exact ih

/-- Visits that count no change have left every entry as it was. -/
theorem get_of_changes_eq_zero (nodes : List Nat) (hroom : root < idoms.capacity)
    (h : changes x root idoms nodes = 0) (a : Nat) :
    (nodes.foldl (visitIdoms x root) idoms).get a = idoms.get a := by
  induction nodes generalizing idoms with
  | nil => rfl
  | cons node nodes ih =>
    rw [changes, Nat.add_eq_zero_iff] at h
    have hsame : (visitIdoms x root idoms node).get node = idoms.get node := by
      by_contra hne
      rw [if_neg hne] at h
      exact absurd h.1 Nat.one_ne_zero
    have hroom' : root < (visitIdoms x root idoms node).capacity := by rwa [capacity_visitIdoms]
    rw [List.foldl_cons, ih hroom' h.2]
    rcases visitIdoms_cases x hroom node with ⟨hall, -⟩ | ⟨-, -, -, -, hother⟩
    · rw [hall]
    · by_cases he : a = node
      · rw [he, hsame]
      · exact hother a he

section
variable (hx : x.Describes edge root) (hdown : ∀ u p, edge u p → p < u)
  (hnode : ∀ u p, edge u p → 0 < p ∧ p < root)
include hx hdown hnode

/-- However many passes there are, the first one has done everything. -/
theorem exact_solve (hroot : 0 < root) {limit : Nat} (hlimit : 1 ≤ limit) :
    ExactFrom edge root (solve x root limit (start root)).1.idoms 0 := by
  obtain ⟨later, hlater⟩ := schedules_eq_cons x root (start root) hlimit
  have hexact := exact_first_pass hx hroot hdown
  have hs := settled_idomsAfter hx hroot (List.prefix_refl _)
  have hsame := ((hexact.certified hx hs hnode).visits hx hs hnode later.flatten).1
  rw [idoms_solve, hlater, List.flatten_cons, List.foldl_append]
  change ExactFrom edge root (later.flatten.foldl (visitIdoms x root) (idomsAfter x root _)) 0
  rw [hsame]
  exact hexact

/-- The first pass sets entries, and the second one finds nothing to change. -/
theorem passes_solve (hroot : 1 < root) {limit : Nat} (hlimit : 2 ≤ limit) :
    (solve x root limit (start root)).2.length = 2 ∧
      (solve x root limit (start root)).2.getLast?.map (·.changed) = some 0 := by
  obtain ⟨limit, rfl⟩ := Nat.exists_eq_add_of_le' hlimit
  have hroom := (isSound_start edge (Nat.zero_lt_of_lt hroot)).forest.room
  have hexact := exact_first_pass hx (Nat.zero_lt_of_lt hroot) hdown
  have hs := settled_idomsAfter hx (Nat.zero_lt_of_lt hroot) (List.prefix_refl _)
  have hfirst : ((start root).pass x root).counts.changed ≠ 0 := by
    rw [changed_pass hroom]
    intro hnone
    -- the first node has no entry before the pass and one after it
    have hsame := get_of_changes_eq_zero _ hroom hnone 1
    rw [get_start, if_neg (Nat.ne_of_gt hroot)] at hsame
    exact hs.2 1 (Nat.zero_le 1) Nat.one_pos hroot hsame
  have hsecond : (((start root).pass x root).pass x root).counts.changed = 0 := by
    have hroom' : root < ((start root).pass x root).idoms.capacity := by
      rwa [idoms_pass, capacity_visits]
    rw [changed_pass hroom', idoms_pass]
    exact ((hexact.certified hx hs hnode).visits hx hs hnode _).2
  rw [solve]
  dsimp only
  rw [if_neg hfirst, solve]
  dsimp only
  rw [if_pos hsecond]
  exact ⟨rfl, congrArg some hsecond⟩

end

variable {snapshot : Snapshot} {fresh run : Run} {traversal : Traversal} {tree : DominatorTree}

section
variable (hf : fresh.IsFresh) (ht : Traversed snapshot.graph fresh run traversal)
  (hc : Computed snapshot run traversal tree)
include hf ht hc

/-- Without cycles among the numbered objects all edges go to smaller numbers. -/
theorem edge_descends
    (hacyclic : ∀ u a, tree.node? u = some a →
      ¬Relation.TransGen (fun s t => t ∈ (FlowGraph.of run snapshot traversal).targets s) u u)
    {a b : Nat} (he : tree.postorder.Edge (.of run snapshot traversal) a b) : b < a := by
  obtain ⟨hn, -⟩ := exists_index hf ht hc
  have hbelow := (hn.edge_bounds he).2
  obtain ⟨rfl, -⟩ | ⟨hne, u, rfl, v, hv, rfl⟩ := he
  · exact hbelow
  · have hroots : ∀ id ∈ (FlowGraph.of run snapshot traversal).roots, run.wasVisited id = true :=
      fun id hid => (List.mem_filter.mp hid).2
    rcases Postorder.retreats_ofGraph hroots (ofGraph_of_computed hc) hne hv with hlt | hback
    · exact hlt
    · -- the edge and the way back from its end are a cycle
      have hway := Relation.ReflTransGen.mono (fun _ _ hstep => hstep.1) _ _ hback
      have hu := (DominatorTree.node?_eq_some_iff hn).mpr ⟨rfl, hne⟩
      exact absurd (Relation.TransGen.head' hv hway) (hacyclic u _ hu)

theorem retainedUnits_of_certified (hlimit : 1 ≤ fresh.config.dominator.maxDominatorIterations)
    (hcertified : Certified (tree.postorder.Edge (.of run snapshot traversal)) tree.idoms) {p : Nat}
    (h0 : 0 < p) (hp : p < tree.superRoot) :
    tree.retainedUnits p = min wordMax (sumBelow tree.superRoot
      (fun q => sizeInUnits (snapshot.graph.sizeOf (tree.objects.get q)))
      fun q => ¬Relation.ReflTransGen
        (fun a b => tree.Edge (.of run snapshot traversal) a b ∧ b ≠ p) tree.superRoot q) := by
  obtain ⟨hs, hall⟩ := settled_of_computed hf ht hc hlimit
  have hretained := retainedUnits_eq hf ht hc hlimit h0 (Nat.le_of_lt hp)
  rw [Nat.min_eq_right (retainedUnits_le hf ht hc p)] at hretained
  rw [hretained]
  refine congrArg (min wordMax) (sumBelow_congr fun q hq0 hq => ?_)
  rw [edge_eq hf ht hc, ← dominates_iff (Nat.ne_of_lt hp)]
  exact ⟨hcertified.dominates hs.forest,
    hs.onChain_of_dominates (Nat.le_of_lt hq) (hall q (Nat.zero_le q) hq0 hq)⟩

end

/-- Where no numbered object leads back to itself, one pass is enough for exact immediate dominators: every
object retains what the super root does not reach without it, up to a full word. A second pass, if there may
be one, has nothing to change. -/
theorem exact_of_acyclic (hf : fresh.IsFresh) (ht : Traversed snapshot.graph fresh run traversal)
    (hc : Computed snapshot run traversal tree)
    (hacyclic : ∀ u a, tree.node? u = some a →
      ¬Relation.TransGen (fun s t => t ∈ (FlowGraph.of run snapshot traversal).targets s) u u)
    (hlimit : 1 ≤ fresh.config.dominator.maxDominatorIterations) :
    tree.IsExact (.of run snapshot traversal) ∧
    (∀ p id, tree.objectAt? p = some id → tree.retainedBytesOf? id = some (4 * min wordMax
      (sumBelow tree.superRoot (fun q => sizeInUnits (snapshot.graph.sizeOf (tree.objects.get q)))
        fun q => ¬Relation.ReflTransGen
          (fun a b => tree.Edge (.of run snapshot traversal) a b ∧ b ≠ p) tree.superRoot q))) ∧
    (2 ≤ fresh.config.dominator.maxDominatorIterations → 1 ≤ tree.nodeCount →
      tree.stats.iterations = 2 ∧ tree.stats.lastChanged = 0) := by
  obtain ⟨hn, x, hindex, hx, hidoms, hiterations, -⟩ := exists_index hf ht hc
  obtain ⟨w, segment, held, hinv, -, hrun, -⟩ := exists_walk hf ht
  have hconfig : run.config = fresh.config := hrun ▸ hinv.visits.heap.config
  have hlast := lastChanged_eq hc hindex
  rw [hconfig] at hlast
  have hdown : ∀ a b, tree.postorder.Edge (.of run snapshot traversal) a b → b < a :=
    fun a b => edge_descends hf ht hc hacyclic
  have hnode : ∀ a b, tree.postorder.Edge (.of run snapshot traversal) a b → 0 < b ∧ b < tree.superRoot :=
    fun a b => hn.edge_bounds
  have hexact := exact_solve hx hdown hnode hn.superRoot_pos hlimit
  rw [← hidoms] at hexact
  have hcertified := hexact.certified hx (settled_of_computed hf ht hc hlimit) hnode
  refine ⟨(isExact_iff_certified hf ht hc hlimit).mpr hcertified, fun p id hid => ?_, fun htwo hcount => ?_⟩
  · obtain ⟨h0, hp⟩ := tree.exists_objectAt?.mp ⟨id, hid⟩
    unfold DominatorTree.retainedBytesOf?
    rw [(DominatorTree.objectAt?_eq_some_iff hn).mp hid, Option.map_some, Nat.mul_comm,
      retainedUnits_of_certified hf ht hc hlimit hcertified h0 hp]
  · have hroot : 1 < tree.superRoot := by
      unfold DominatorTree.nodeCount at hcount
      omega
    obtain ⟨hlength, hend⟩ := passes_solve hx hdown hnode hroot htwo
    rw [hiterations, hlast, hend]
    exact ⟨hlength, rfl⟩

/-- Two ways from a root join again. -/
def joinedHeap : HeapGraph where
  classes := .ofList [{ name := "Node" }]
  objects := #[
    { classId := 1, size := 4, references := [2, 3] },
    { classId := 1, size := 8, references := [4] },
    { classId := 1, size := 12, references := [4] },
    { classId := 1, size := 16, references := [5] },
    { classId := 1, size := 20 }]
  roots := [{ id := 1 }]

def joinedRun : Run where
  config := {}
  objectCount := 5
  parents := .create 7
  sizes := .create 7
  visited := .create 7
  roles := .create 7

theorem joinedRun_isFresh : joinedRun.IsFresh :=
  ⟨{}, 5, none, { available := .ok 1000 }, rfl⟩

def joinedVisits : Run :=
  (joinedRun.traverse joinedHeap [] {}).run

set_option maxRecDepth 10000 in
theorem exists_joined : ∃ traversal tree, Traversed joinedHeap joinedRun joinedVisits traversal ∧
    Computed { graph := joinedHeap } joinedVisits traversal tree ∧ tree.nodeCount = 5 ∧
    tree.stats.iterations = 2 ∧
    (List.range' 1 5).map tree.immediateDominator? = [some 2, some 5, some 5, some 5, some 6] ∧
    (List.range' 1 5).map tree.retainedBytesOf? = [some 60, some 8, some 12, some 36, some 20] :=
  exists_computed joinedRun { graph := joinedHeap } { available := .ok 1000 } _ (by decide +kernel)

/-- References of the example go to larger objects. -/
theorem lt_of_mem_targets_joined {traversal : Traversal} {s t : Nat}
    (ht : t ∈ (FlowGraph.of joinedVisits { graph := joinedHeap } traversal).targets s) : s < t := by
  have hobjects : ∀ s < 6, ∀ t ∈ joinedHeap.strongReferences s, s < t := by decide
  have hmem := (List.mem_filter.mp ht).1
  have hchildren : (joinedVisits.syntheticChildren? s).getD [] = [] := rfl
  change t ∈ joinedHeap.strongReferences s ++ (joinedVisits.syntheticChildren? s).getD [] at hmem
  rw [hchildren, List.append_nil] at hmem
  by_cases hs : s < 6
  · exact hobjects s hs t hmem
  · have hnone : joinedHeap.record? s = none := by
      unfold HeapGraph.record?
      rw [if_neg (Nat.ne_of_gt (Nat.lt_of_lt_of_le (Nat.succ_pos 5) (Nat.not_lt.mp hs)))]
      exact Array.getElem?_eq_none (show 5 ≤ s - 1 by omega)
    unfold HeapGraph.strongReferences HeapGraph.referentSlot? HeapGraph.references at hmem
    rw [hnone] at hmem
    exact absurd hmem List.not_mem_nil

theorem exact_of_acyclic_joinedHeap : joinedRun.IsFresh ∧ ∃ traversal tree,
    Traversed joinedHeap joinedRun joinedVisits traversal ∧
    Computed { graph := joinedHeap } joinedVisits traversal tree ∧
    (∀ u a, tree.node? u = some a → ¬Relation.TransGen
      (fun s t => t ∈ (FlowGraph.of joinedVisits { graph := joinedHeap } traversal).targets s) u u) ∧
    1 ≤ joinedRun.config.dominator.maxDominatorIterations ∧
    tree.IsExact (.of joinedVisits { graph := joinedHeap } traversal) ∧
    tree.stats.iterations = 2 ∧ tree.stats.lastChanged = 0 := by
  obtain ⟨traversal, tree, ht, hc, hcount, -⟩ := exists_joined
  have hacyclic : ∀ u a, tree.node? u = some a → ¬Relation.TransGen
      (fun s t => t ∈ (FlowGraph.of joinedVisits { graph := joinedHeap } traversal).targets s) u u := by
    intro u _ _ hcycle
    have hlt : ∀ v, Relation.TransGen
        (fun s t => t ∈ (FlowGraph.of joinedVisits { graph := joinedHeap } traversal).targets s) u v → u < v := by
      intro v hway
      induction hway with
      | single h => exact lt_of_mem_targets_joined h
      | tail _ h ih => exact Nat.lt_trans ih (lt_of_mem_targets_joined h)
    exact Nat.lt_irrefl u (hlt u hcycle)
  have hlimit : 2 ≤ joinedRun.config.dominator.maxDominatorIterations := by decide
  obtain ⟨hexact, -, hpasses⟩ := @exact_of_acyclic { graph := joinedHeap } _ _ _ _ joinedRun_isFresh ht hc
    hacyclic (Nat.le_of_lt hlimit)
  exact ⟨joinedRun_isFresh, traversal, tree, ht, hc, hacyclic, Nat.le_of_lt hlimit, hexact,
    hpasses hlimit (by omega)⟩

end HeapRetention
