import HeapRetention.Proofs.DominatorsMet
import Mathlib.Algebra.BigOperators.Intervals

/-! How long the passes go on. A change that raises an entry uses up some of the room between its node and
the super root; one that lowers an entry gives room back. So the passes make no more changes than all nodes
together have room for, and what was given back. -/
namespace HeapRetention

/-- What lowering an entry gives back: as much as the entry loses, and the change itself. -/
def setback (before after : Nat) : Nat :=
  if after < before then before - after + 1 else 0

namespace Fixpoint

/-- How many of some visits change the entry of their node. -/
def changes (x : EdgeIndex) (root : Nat) : Slots → List Nat → Nat
  | _, [] => 0
  | idoms, node :: rest =>
    (if (visitIdoms x root idoms node).get node = idoms.get node then 0 else 1) +
      changes x root (visitIdoms x root idoms node) rest

/-- What some visits give back. -/
def setbacks (x : EdgeIndex) (root : Nat) : Slots → List Nat → Nat
  | _, [] => 0
  | idoms, node :: rest =>
    setback (idoms.get node) ((visitIdoms x root idoms node).get node) +
      setbacks x root (visitIdoms x root idoms node) rest

/-- How far the entries of all nodes are above their nodes. -/
def height (root : Nat) (idoms : Slots) : Nat :=
  ∑ p ∈ Finset.Ico 1 root, (idoms.get p - p)

variable {x : EdgeIndex} {root node : Nat} {idoms : Slots} {f : Fixpoint}

theorem capacity_visitIdoms (x : EdgeIndex) (root : Nat) (idoms : Slots) (node : Nat) :
    (visitIdoms x root idoms node).capacity = idoms.capacity := by
  unfold visitIdoms visit
  split
  · rfl
  · exact capacity_update x root _ node

theorem capacity_visits (x : EdgeIndex) (root : Nat) (nodes : List Nat) (idoms : Slots) :
    (nodes.foldl (visitIdoms x root) idoms).capacity = idoms.capacity := by
  induction nodes generalizing idoms with
  | nil => rfl
  | cons node nodes ih => exact (ih _).trans (capacity_visitIdoms x root idoms node)

/-- A visit leaves out nodes that are none and nodes right below the super root, or sets the entry of its
node to what the predecessors propose. -/
theorem visitIdoms_cases (x : EdgeIndex) (hroom : root < idoms.capacity) (node : Nat) :
    (visitIdoms x root idoms node = idoms ∧ (node = 0 ∨ root ≤ node ∨ idoms.get node = root)) ∨
    (0 < node ∧ node < root ∧ idoms.get node ≠ root ∧
      (visitIdoms x root idoms node).get node = proposal x root idoms node ∧
      ∀ a, a ≠ node → (visitIdoms x root idoms node).get a = idoms.get a) := by
  unfold visitIdoms visit
  by_cases hskip : node = 0 ∨ root ≤ node ∨ idoms.get node = root
  · exact Or.inl ⟨congrArg Fixpoint.idoms (if_pos hskip), hskip⟩
  · have hcapacity : node < idoms.capacity := by omega
    have hget : ∀ a, ((⟨idoms, .covering root, {}⟩ : Fixpoint).update x root node).idoms.get a =
        if a = node then proposal x root idoms node else idoms.get a := get_update hcapacity
    rw [if_neg hskip]
    refine Or.inr ⟨by omega, by omega, fun htop => hskip (Or.inr (Or.inr htop)), ?_, fun a hne => ?_⟩
    · exact (hget node).trans (if_pos rfl)
    · exact (hget a).trans (if_neg hne)

theorem changes_append (upper lower : List Nat) (idoms : Slots) :
    changes x root idoms (upper ++ lower) =
      changes x root idoms upper + changes x root (upper.foldl (visitIdoms x root) idoms) lower := by
  induction upper generalizing idoms with
  | nil => exact (Nat.zero_add _).symm
  | cons node upper ih =>
    rw [List.cons_append, changes, changes, ih, Nat.add_assoc]
    rfl

theorem changes_cons (rest : List Nat) (idoms : Slots) :
    changes x root idoms (node :: rest) =
      changes x root idoms [node] + changes x root (visitIdoms x root idoms node) rest :=
  changes_append [node] rest idoms

theorem changed_update (hcapacity : node < f.idoms.capacity) :
    (f.update x root node).counts.changed =
      f.counts.changed + if (f.update x root node).idoms.get node = f.idoms.get node then 0 else 1 := by
  unfold update
  cases x.incoming node with
  | nil =>
    dsimp only
    rw [if_pos rfl]
    rfl
  | cons p rest =>
    dsimp only
    split
    · dsimp only
      rw [if_pos rfl]
      rfl
    · next hnew =>
      dsimp only
      rw [Slots.get_put, if_pos (And.intro rfl hcapacity), if_neg hnew]

/-- A visit counts the change that it makes. -/
theorem changed_visit (hroom : root < f.idoms.capacity) (node : Nat) :
    (f.visit x root node).counts.changed = f.counts.changed + changes x root f.idoms [node] := by
  rw [changes, changes, Nat.add_zero, ← idoms_visit]
  unfold visit
  split
  · rw [if_pos rfl]
    rfl
  · exact changed_update (by omega)

theorem changed_visitRange (base size : Nat) (hroom : root < f.idoms.capacity) :
    (visitRange x root base size f).counts.changed =
      f.counts.changed + changes x root f.idoms (List.range' base size).reverse := by
  induction size generalizing f with
  | zero => rfl
  | succ size ih =>
    have hnext : root < (f.visit x root (base + size)).idoms.capacity := by
      rwa [idoms_visit, capacity_visitIdoms]
    rw [visitRange, ih hnext, changed_visit hroom, idoms_visit, List.range'_1_concat, List.reverse_concat,
      Nat.add_assoc, changes_cons (List.range' base size).reverse]

theorem changed_visitCard (card : Nat) (hroom : root < f.idoms.capacity) :
    (f.visitCard x root card).counts.changed =
      f.counts.changed + changes x root f.idoms (f.cardSchedule card) :=
  changed_visitRange _ _ hroom

theorem changed_visitChunk (index : Nat) (chunk : UInt64) (bits : Nat) (hroom : root < f.idoms.capacity) :
    (visitChunk x root index chunk bits f).counts.changed =
      f.counts.changed + changes x root f.idoms (chunkSchedule x root index chunk bits f) := by
  induction bits generalizing f with
  | zero => rfl
  | succ bits ih =>
    rw [visitChunk, chunkSchedule]
    split
    · exact ih hroom
    · have hnext : root < (f.visitCard x root (index * 64 + bits)).idoms.capacity := by
        rwa [idoms_visitCard, capacity_visits]
      rw [ih hnext, changed_visitCard _ hroom, idoms_visitCard, changes_append, Nat.add_assoc]

theorem changed_visitChunks (chunks : Nat) (hroom : root < f.idoms.capacity) :
    (visitChunks x root chunks f).counts.changed =
      f.counts.changed + changes x root f.idoms (chunksSchedule x root chunks f) := by
  induction chunks generalizing f with
  | zero => rfl
  | succ index ih =>
    rw [visitChunks, chunksSchedule]
    split
    · exact ih hroom
    · have hnext : root < (visitChunk x root index (f.cards.chunk index) 64 f).idoms.capacity := by
        rwa [idoms_visitChunk, capacity_visits]
      rw [ih hnext, changed_visitChunk _ _ _ hroom, idoms_visitChunk, changes_append, Nat.add_assoc]

/-- A pass counts the changes that its visits make. -/
theorem changed_pass (hroom : root < f.idoms.capacity) :
    (f.pass x root).counts.changed = changes x root f.idoms (f.passSchedule x root) := by
  have hcount := changed_visitChunks (x := x) (f := { f with counts := {} }) f.cards.chunks.size hroom
  exact hcount.trans (Nat.zero_add _)

theorem changes_solve (limit : Nat) (hroom : root < f.idoms.capacity) :
    ((solve x root limit f).2.map (·.changed)).sum =
      changes x root f.idoms (schedules x root limit f).flatten := by
  induction limit generalizing f with
  | zero => rfl
  | succ limit ih =>
    have hnext : root < (f.pass x root).idoms.capacity := by
      rwa [idoms_pass, capacity_visits]
    rw [solve, schedules, List.flatten_cons, changes_append, ← idoms_pass, ← changed_pass hroom]
    dsimp only
    split
    · rfl
    · rw [List.map_cons, List.sum_cons, ih hnext]

/-- Every pass but the last one makes a change, and passes that do not use up their limit end with one that
makes none. -/
theorem length_solve_le (x : EdgeIndex) (root limit : Nat) (f : Fixpoint) :
    (solve x root limit f).2.length ≤ ((solve x root limit f).2.map (·.changed)).sum + 1 ∧
      (((solve x root limit f).2.map (·.changed)).sum < limit →
        (solve x root limit f).2.getLast?.map (·.changed) = some 0) := by
  induction limit generalizing f with
  | zero => exact ⟨Nat.zero_le _, fun h => absurd h (Nat.not_lt_zero _)⟩
  | succ limit ih =>
    obtain ⟨hlength, hlast⟩ := ih (f.pass x root)
    rw [solve]
    dsimp only
    split
    · next hnone => exact ⟨Nat.le_add_left 1 _, fun _ => congrArg some hnone⟩
    · next hsome =>
      rw [List.length_cons, List.map_cons, List.sum_cons]
      refine ⟨by omega, fun hlt => ?_⟩
      have hend := hlast (by omega)
      -- the last pass of all is the last of the later ones
      have hrest : (solve x root limit (f.pass x root)).2.getLast? ≠ none :=
        fun hnil => by rw [hnil] at hend; cases hend
      rwa [List.getLast?_cons_of_ne_nil fun hnil => hrest (List.getLast?_eq_none_iff.mpr hnil)]

/-- What happens to the height when one entry changes. -/
theorem height_change {idoms' : Slots} (h0 : 0 < node) (hn : node < root)
    (hother : ∀ a, a ≠ node → idoms'.get a = idoms.get a) :
    height root idoms' + (idoms.get node - node) = height root idoms + (idoms'.get node - node) := by
  have hmem : node ∈ Finset.Ico 1 root := Finset.mem_Ico.mpr ⟨h0, hn⟩
  have hrest : ∑ p ∈ (Finset.Ico 1 root).erase node, (idoms'.get p - p) =
      ∑ p ∈ (Finset.Ico 1 root).erase node, (idoms.get p - p) :=
    Finset.sum_congr rfl fun p hp => by rw [hother p (Finset.ne_of_mem_erase hp)]
  unfold height
  rw [← Finset.add_sum_erase _ _ hmem, ← Finset.add_sum_erase _ _ hmem, hrest]
  omega

/-- No entry is beyond the super root. -/
theorem height_le (hforest : IsForest idoms root) : height root idoms ≤ (root - 1) * root / 2 := by
  have hentry : ∀ p ∈ Finset.Ico 1 root, idoms.get p - p ≤ root - p := by
    intro p hp
    by_cases hk : idoms.get p = 0
    · omega
    · have := (hforest.climbs p (Finset.mem_Ico.mp hp).2 hk).2
      omega
  have hgauss : ∑ p ∈ Finset.Ico 1 root, (root - p) = ∑ q ∈ Finset.range root, q := by
    have hmirror := Finset.sum_Ico_reflect (fun q => q) 1 (Nat.le_succ root)
    rw [Nat.add_sub_cancel_left, Nat.add_sub_cancel] at hmirror
    rw [hmirror, Finset.sum_range_eq_add_Ico _ hforest.root_pos, Nat.zero_add]
  calc height root idoms ≤ ∑ p ∈ Finset.Ico 1 root, (root - p) := Finset.sum_le_sum hentry
    _ = (root - 1) * root / 2 := by rw [hgauss, Finset.sum_range_id, Nat.mul_comm]

/-- A change that gives nothing back uses up room, as the entry is above its node from then on. -/
theorem room_visit (hroom : root < idoms.capacity) (hforest : IsForest (visitIdoms x root idoms node) root) :
    changes x root idoms [node] + height root idoms ≤
      height root (visitIdoms x root idoms node) + setbacks x root idoms [node] := by
  rw [changes, changes, setbacks, setbacks]
  rcases visitIdoms_cases x hroom node with ⟨hsame, -⟩ | ⟨h0, hn, -, -, hother⟩
  · rw [hsame, if_pos rfl]
    omega
  · -- a raised entry gains height, a lowered one gives back what it loses and one more
    have hheight := height_change h0 hn hother
    have habove : (visitIdoms x root idoms node).get node ≠ 0 → node < (visitIdoms x root idoms node).get node :=
      fun hk => (hforest.climbs node hn hk).1
    unfold setback
    split
    · omega
    · split <;> omega

variable {edge : Nat → Nat → Prop} (hx : x.Describes edge root) (hroot : 0 < root)
include hx hroot

/-- Over visits that the passes make the changes use up room, up to what is given back. -/
theorem room_visits {later : List Nat} (done rest : List Nat)
    (hdone : done ++ rest <+: (start root).passSchedule x root ++ later) :
    changes x root (idomsAfter x root done) rest + height root (idomsAfter x root done) ≤
      height root (idomsAfter x root (done ++ rest)) + setbacks x root (idomsAfter x root done) rest := by
  -- along the visits still to make; the list is that after the visits that are done
  induction rest generalizing done with
  | nil => rw [changes, setbacks, List.append_nil, Nat.zero_add, Nat.add_zero]
  | cons node rest ih =>
    rw [List.append_cons] at hdone ⊢
    have hafter : idomsAfter x root (done ++ [node]) = visitIdoms x root (idomsAfter x root done) node :=
      List.foldl_append
    have hnow := (isSound_idomsAfter hx hroot ((List.prefix_append _ _).trans hdone)).forest
    have hbefore := (isSound_idomsAfter hx hroot
      ((List.prefix_append _ _).trans ((List.prefix_append _ _).trans hdone))).forest
    have hrest := ih (done ++ [node]) hdone
    rw [hafter] at hnow hrest
    have hstep := room_visit hbefore.room hnow
    have hsplit : setbacks x root (idomsAfter x root done) (node :: rest) =
        setbacks x root (idomsAfter x root done) [node] +
          setbacks x root (visitIdoms x root (idomsAfter x root done) node) rest := rfl
    rw [changes_cons, hsplit]
    omega

theorem changes_le {visits later : List Nat} (hvisits : visits <+: (start root).passSchedule x root ++ later) :
    changes x root (start root).idoms visits ≤
      (root - 1) * root / 2 + setbacks x root (start root).idoms visits := by
  have hroom := room_visits hx hroot [] visits hvisits
  have htop := height_le (isSound_idomsAfter hx hroot hvisits).forest
  exact Nat.le_trans (Nat.le_add_right _ _) (Nat.le_trans hroom (Nat.add_le_add_right htop _))

end Fixpoint

/-- A node that is met on the way up from all predecessors of another one that have an entry. -/
def Shared (edge : Nat → Nat → Prop) (idoms : Slots) (node c : Nat) : Prop :=
  ∀ u, edge u node → idoms.get u ≠ 0 → OnChain idoms.get u c

namespace Fixpoint
variable {x : EdgeIndex} {root node : Nat} {idoms : Slots} {edge : Nat → Nat → Prop}

/-- A change raises an entry exactly if the predecessors share no node up to it. -/
theorem raises_iff (hx : x.Describes edge root) (h : SettledFrom edge root idoms (node + 1))
    (hchanged : (visitIdoms x root idoms node).get node ≠ idoms.get node) :
    idoms.get node < (visitIdoms x root idoms node).get node ↔
      ∀ c, Shared edge idoms node c → idoms.get node < c := by
  have hforest := h.1.forest
  rcases visitIdoms_cases x hforest.room node with ⟨hsame, -⟩ | ⟨h0, hn, -, hget, -⟩
  · rw [hsame] at hchanged
    exact absurd rfl hchanged
  · obtain ⟨⟨-, hle, hk⟩, -, hshared, hfirst⟩ := proposal_meets hx hforest h0 hn h.2
    rw [hget]
    constructor
    · intro hlt c hc
      exact Nat.lt_of_lt_of_le hlt (hforest.of_onChain hle hk (hfirst c hc)).1
    · exact fun hall => hall _ hshared

/-- Nothing is given back exactly if no visit lowers an entry. -/
theorem setbacks_eq_zero_iff (x : EdgeIndex) (root : Nat) (visits : List Nat) (idoms : Slots) :
    setbacks x root idoms visits = 0 ↔ ∀ done node later, visits = done ++ node :: later →
      (done.foldl (visitIdoms x root) idoms).get node ≤
        ((done ++ [node]).foldl (visitIdoms x root) idoms).get node := by
  induction visits generalizing idoms with
  | nil =>
    refine iff_of_true rfl fun done node later h => absurd h.symm ?_
    exact List.append_ne_nil_of_right_ne_nil _ (List.cons_ne_nil _ _)
  | cons first visits ih =>
    have hzero : setback (idoms.get first) ((visitIdoms x root idoms first).get first) = 0 ↔
        idoms.get first ≤ (visitIdoms x root idoms first).get first := by
      unfold setback
      split <;> omega
    rw [setbacks, Nat.add_eq_zero_iff, hzero, ih]
    constructor
    · rintro ⟨hfirst, hrest⟩ done node later heq
      cases done with
      | nil =>
        cases heq
        exact hfirst
      | cons a done =>
        cases heq
        exact hrest done node later rfl
    · intro h
      exact ⟨h [] first visits rfl, fun done node later heq => h (first :: done) node later (congrArg _ heq)⟩

end Fixpoint

variable {snapshot : Snapshot} {fresh run : Run} {traversal : Traversal} {tree : DominatorTree}

open Fixpoint in
/-- How the passes over a heap end. A visit that changes an entry raises it exactly if the predecessors of the
node share no node up to that entry. Whatever visits lower an entry, the passes end after as many as all nodes
have room for and one more, and after those that make up for what was given back; unless the limit is smaller
they end because nothing changes any more. -/
theorem passes_end (hf : fresh.IsFresh) (ht : Traversed snapshot.graph fresh run traversal)
    (hc : Computed snapshot run traversal tree) :
    ∃ x visits, EdgeIndex.ofGraph (.of run snapshot traversal) tree.postorder (.covering tree.superRoot) = .ok x ∧
      visits = (schedules x tree.superRoot fresh.config.dominator.maxDominatorIterations
        (start tree.superRoot)).flatten ∧
      tree.idoms = idomsAfter x tree.superRoot visits ∧
      (∀ done node later, visits = done ++ node :: later →
        (idomsAfter x tree.superRoot (done ++ [node])).get node ≠ (idomsAfter x tree.superRoot done).get node →
        ((idomsAfter x tree.superRoot done).get node < (idomsAfter x tree.superRoot (done ++ [node])).get node ↔
          ∀ c, Shared (tree.Edge (.of run snapshot traversal)) (idomsAfter x tree.superRoot done) node c →
            (idomsAfter x tree.superRoot done).get node < c)) ∧
      (setbacks x tree.superRoot (start tree.superRoot).idoms visits = 0 ↔
        ∀ done node later, visits = done ++ node :: later →
          (idomsAfter x tree.superRoot done).get node ≤ (idomsAfter x tree.superRoot (done ++ [node])).get node) ∧
      tree.stats.iterations ≤ tree.nodeCount * (tree.nodeCount + 1) / 2 +
        setbacks x tree.superRoot (start tree.superRoot).idoms visits + 1 ∧
      (tree.nodeCount * (tree.nodeCount + 1) / 2 + setbacks x tree.superRoot (start tree.superRoot).idoms visits <
        fresh.config.dominator.maxDominatorIterations → tree.stats.lastChanged = 0) := by
  obtain ⟨hn, x, hindex, hx, hidoms, hiterations, -⟩ := exists_index hf ht hc
  obtain ⟨w, segment, held, hinv, -, hrun, -⟩ := exists_walk hf ht
  have hconfig : run.config = fresh.config := hrun ▸ hinv.visits.heap.config
  have hlast := lastChanged_eq hc hindex
  rw [hconfig] at hlast
  generalize fresh.config.dominator.maxDominatorIterations = limit at *
  have hroot : 0 < tree.superRoot := hn.superRoot_pos
  have hcount : tree.nodeCount * (tree.nodeCount + 1) = (tree.superRoot - 1) * tree.superRoot :=
    congrArg (tree.nodeCount * ·) (Nat.sub_add_cancel hroot)
  -- without a limit of one at least there are no visits at all
  have hvisits : ∃ later, (schedules x tree.superRoot limit (start tree.superRoot)).flatten <+:
      (start tree.superRoot).passSchedule x tree.superRoot ++ later := by
    cases limit with
    | zero => exact ⟨[], List.nil_prefix⟩
    | succ limit => exact ⟨_, List.prefix_refl _⟩
  obtain ⟨later, hvisits⟩ := hvisits
  have hforest := (isSound_start (tree.Edge (.of run snapshot traversal)) hroot).forest
  have hchanges := changes_solve (x := x) limit hforest.room
  have hroom := changes_le hx hroot hvisits
  obtain ⟨hlength, hend⟩ := length_solve_le x tree.superRoot limit (start tree.superRoot)
  rw [hchanges] at hlength hend
  rw [hcount, edge_eq hf ht hc]
  refine ⟨x, _, hindex, rfl, hidoms.trans (idoms_solve _ _), fun done node rest hsplit hchanged => ?_,
    setbacks_eq_zero_iff x tree.superRoot _ _, by omega, fun hlt => ?_⟩
  · rw [hsplit, List.append_cons] at hvisits
    have hsettled := settled_visited hx hroot ((List.prefix_append _ _).trans hvisits)
    have hafter : idomsAfter x tree.superRoot (done ++ [node]) =
        visitIdoms x tree.superRoot (idomsAfter x tree.superRoot done) node := List.foldl_append
    rw [hafter] at hchanged ⊢
    exact raises_iff hx hsettled hchanged
  · rw [hlast, hend (by omega)]
    rfl

/-- Fourteen objects whose passes never end by themselves: from the fourth one on every pass changes two
immediate dominators, and every four passes the list is the same again. -/
def whirlHeap : HeapGraph where
  classes := .ofList [{ name := "Node" }]
  objects := #[
    { classId := 1, size := 4, references := [14, 2] },
    { classId := 1, size := 4, references := [8, 3] },
    { classId := 1, size := 4, references := [4] },
    { classId := 1, size := 4, references := [6, 5] },
    { classId := 1, size := 4, references := [6, 9] },
    { classId := 1, size := 4, references := [7, 12] },
    { classId := 1, size := 4, references := [8, 10, 11] },
    { classId := 1, size := 4, references := [6, 5] },
    { classId := 1, size := 4, references := [10] },
    { classId := 1, size := 4, references := [11] },
    { classId := 1, size := 4, references := [12] },
    { classId := 1, size := 4, references := [13, 9] },
    { classId := 1, size := 4, references := [14, 3] },
    { classId := 1, size := 4, references := [13] }]
  roots := [{ id := 1 }]

def whirlRun : Run where
  config := { dominator := { maxDominatorIterations := 106 } }
  objectCount := 14
  parents := .create 16
  sizes := .create 16
  visited := .create 16
  roles := .create 16

theorem whirlRun_isFresh : whirlRun.IsFresh :=
  ⟨whirlRun.config, 14, none, { available := .ok 1000 }, rfl⟩

def whirlVisits : Run :=
  (whirlRun.traverse whirlHeap [] {}).run

set_option maxRecDepth 10000 in
theorem exists_whirl : ∃ traversal tree, Traversed whirlHeap whirlRun whirlVisits traversal ∧
    Computed { graph := whirlHeap } whirlVisits traversal tree ∧
    tree.nodeCount = 14 ∧ tree.stats.iterations = 106 ∧ tree.stats.lastChanged = 2 :=
  exists_computed whirlRun { graph := whirlHeap } { available := .ok 1000 } _ (by decide +kernel)

open Fixpoint in
theorem passes_end_whirlHeap : whirlRun.IsFresh ∧ ∃ traversal tree,
    Traversed whirlHeap whirlRun whirlVisits traversal ∧
    Computed { graph := whirlHeap } whirlVisits traversal tree ∧
    tree.nodeCount = 14 ∧ tree.stats.iterations = 106 ∧ tree.stats.lastChanged = 2 ∧
    ∃ x visits, EdgeIndex.ofGraph (.of whirlVisits { graph := whirlHeap } traversal) tree.postorder
        (.covering tree.superRoot) = .ok x ∧
      visits = (schedules x tree.superRoot 106 (start tree.superRoot)).flatten ∧
      tree.idoms = idomsAfter x tree.superRoot visits ∧
      (∀ done node later, visits = done ++ node :: later →
        (idomsAfter x tree.superRoot (done ++ [node])).get node ≠ (idomsAfter x tree.superRoot done).get node →
        ((idomsAfter x tree.superRoot done).get node < (idomsAfter x tree.superRoot (done ++ [node])).get node ↔
          ∀ c, Shared (tree.Edge (.of whirlVisits { graph := whirlHeap } traversal))
            (idomsAfter x tree.superRoot done) node c → (idomsAfter x tree.superRoot done).get node < c)) ∧
      (setbacks x tree.superRoot (start tree.superRoot).idoms visits = 0 ↔
        ∀ done node later, visits = done ++ node :: later →
          (idomsAfter x tree.superRoot done).get node ≤ (idomsAfter x tree.superRoot (done ++ [node])).get node) ∧
      tree.stats.iterations ≤ tree.nodeCount * (tree.nodeCount + 1) / 2 +
        setbacks x tree.superRoot (start tree.superRoot).idoms visits + 1 ∧
      (tree.nodeCount * (tree.nodeCount + 1) / 2 + setbacks x tree.superRoot (start tree.superRoot).idoms visits <
        106 → tree.stats.lastChanged = 0) := by
  obtain ⟨traversal, tree, ht, hc, hcount, hpasses, hlast⟩ := exists_whirl
  exact ⟨whirlRun_isFresh, traversal, tree, ht, hc, hcount, hpasses, hlast,
    @passes_end { graph := whirlHeap } _ _ _ _ whirlRun_isFresh ht hc⟩

/-- Room for all changes that raise an entry is no guarantee that the passes end by themselves. -/
theorem passes_outlast_room : ¬∀ (snapshot : Snapshot) (fresh run : Run) (traversal : Traversal)
    (tree : DominatorTree), fresh.IsFresh → Traversed snapshot.graph fresh run traversal →
    Computed snapshot run traversal tree →
    tree.nodeCount * (tree.nodeCount + 1) / 2 < fresh.config.dominator.maxDominatorIterations →
      tree.stats.lastChanged = 0 ∧
        tree.stats.iterations ≤ tree.nodeCount * (tree.nodeCount + 1) / 2 + 1 := by
  intro hall
  obtain ⟨traversal, tree, ht, hc, hcount, -, hlast⟩ := exists_whirl
  have hlimit : tree.nodeCount * (tree.nodeCount + 1) / 2 < whirlRun.config.dominator.maxDominatorIterations := by
    rw [hcount]
    decide
  have hnone := (hall { graph := whirlHeap } whirlRun whirlVisits traversal tree whirlRun_isFresh ht hc hlimit).1
  rw [hlast] at hnone
  cases hnone

end HeapRetention
