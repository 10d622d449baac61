import HeapRetention.Proofs.ListsSuffice

/-! The packed index is complete. Whenever it comes to be, nothing was too large for its word: the counts of
the first pass add up to all edges, and that sum was stored. Each node then has the words of its own edges and
no others, from where the words of the node before it end. -/
namespace HeapRetention
open PackedLists

namespace IndexLists
variable {g : FlowGraph} {p : Postorder} {node : Nat}

/-- The predecessors of a node: the super root if the object is a root, and every node once for each of its
slots that holds the object. -/
def predecessors (g : FlowGraph) (p : Postorder) (node : Nat) : List Nat :=
  (if p.objects.get node ∈ g.roots then [p.superRoot] else []) ++
    p.nodes.flatMap fun u => List.replicate ((g.targets (p.objects.get u)).count (p.objects.get node)) u

/-- The places of a node's words. -/
def Places (l : PackedLists) (node i : Nat) : Prop :=
  l.offsets.get node ≤ i ∧ i < l.offsets.get (node + 1)

/-- Targets have different numbers, so a target is met as often as its number. -/
theorem count_successorNodes (hp : p.Numbers g) {u : Nat} (hu0 : 0 < u) (hu : u < p.superRoot) (h0 : 0 < node)
    (hlt : node < p.superRoot) :
    (successorNodes g p u).count node = (g.targets (p.objects.get u)).count (p.objects.get node) := by
  have hmet : p.numbers.get (p.objects.get u) ≠ 0 := by
    rw [hp.number_object u hu0 hu]
    omega
  unfold successorNodes
  rw [List.count_eq_countP, List.countP_map, List.count_eq_countP]
  apply List.countP_congr
  intro id _
  rw [Function.comp_apply, beq_iff_eq, beq_iff_eq]
  exact hp.eq_object_iff h0 hlt

/-- The words of a node are its predecessors. -/
theorem wordsOf_perm (hp : p.Numbers g) (hroots : g.roots.Pairwise (· < ·)) (h0 : 0 < node)
    (hlt : node < p.superRoot) :
    (wordsOf (before (edgesAt g p) p.superRoot) node).Perm (predecessors g p node) := by
  have hin : node ∈ p.nodes := List.mem_range'_1.mpr ⟨h0, by omega⟩
  have hroot : isRootNode g p node = true ↔ p.objects.get node ∈ g.roots := FlowGraph.contains_iff hroots _
  have hwords : ∀ u ∈ p.nodes, wordsOf (edgesAt g p u) node =
      (if u = node ∧ isRootNode g p u = true then [p.superRoot] else []) ++
        List.replicate ((g.targets (p.objects.get u)).count (p.objects.get node)) u := by
    intro u hu
    have hbounds := List.mem_range'_1.mp hu
    rw [wordsOf_edgesAt, count_successorNodes hp (by omega) (by omega) h0 hlt]
  have hall : wordsOf (before (edgesAt g p) p.superRoot) node = p.nodes.flatMap fun u =>
      (if u = node ∧ isRootNode g p u = true then [p.superRoot] else []) ++
        List.replicate ((g.targets (p.objects.get u)).count (p.objects.get node)) u := by
    unfold before
    rw [wordsOf_flatMap]
    exact List.flatMap_congr hwords
  have hfirst := @flatMap_roots p.nodes List.nodup_range' p.superRoot node (isRootNode g p)
  simp only [hin, true_and, hroot] at hfirst
  unfold predecessors
  rw [hall, ← hfirst]
  exact (List.flatMap_append_perm _ _ _).symm

/-- The first pass counts the edges to every node. -/
theorem counts_of_noteAll (hs : p.Sized g) (hreads : ∀ id, g.snapshot.breaksAt id = none) {t t' : Tally}
    {nodes : List Nat} (hnodes : ∀ u ∈ nodes, u < p.superRoot)
    (h : t.noteAll g p.objects p.numbers (.covering p.superRoot) p.superRoot nodes = .ok t') (key : Nat) :
    t'.counts.get key = t.counts.get key + (wordsOf (nodes.flatMap (edgesAt g p)) key).length := by
  induction nodes generalizing t with
  | nil =>
    cases h
    rfl
  | cons u nodes ih =>
    obtain ⟨next, hnext, h⟩ := ok_of_bind h
    unfold Tally.note at hnext
    rw [outgoing_ok hs hreads (hnodes u List.mem_cons_self), ok_bind] at hnext
    obtain ⟨counts, hcount, hnext⟩ := ok_of_bind hnext
    obtain ⟨offsets, -, hnext⟩ := ok_of_bind hnext
    obtain ⟨words, -, hnext⟩ := ok_of_bind hnext
    obtain ⟨refs, -, hnext⟩ := ok_of_bind hnext
    cases hnext
    have hrest := ih (fun v hv => hnodes v (List.mem_cons_of_mem u hv)) h
    rw [hrest, List.flatMap_cons, wordsOf_append, List.length_append, ← Nat.add_assoc]
    exact congrArg (· + _) (count_of_ok hcount key)

section
variable (hp : p.Numbers g)
include hp

/-- Every edge leads to a node and comes from a node or the super root. -/
theorem pos_of_mem_edges {e : Entry} (he : e ∈ before (edgesAt g p) p.superRoot) :
    0 < e.1 ∧ e.1 < p.superRoot ∧ 0 < e.2 := by
  obtain ⟨u, hu, hin⟩ := List.mem_flatMap.mp he
  have hbounds := List.mem_range'_1.mp hu
  have hu0 : 0 < u := hbounds.1
  have hult : u < p.superRoot := by omega
  have hlt := (mem_edgesAt hp hult hin).1
  unfold edgesAt entriesAt at hin
  rcases List.mem_append.mp hin with hin | hin
  · split at hin
    · rw [List.mem_singleton.mp hin]
      exact ⟨hu0, hult, hp.superRoot_pos⟩
    · cases hin
  · obtain ⟨b, hb, rfl⟩ := List.mem_map.mp hin
    obtain ⟨id, hid, rfl⟩ := List.mem_map.mp hb
    have hmet : p.numbers.get (p.objects.get u) ≠ 0 := by
      rw [hp.number_object u hu0 hult]
      omega
    exact ⟨Nat.pos_of_ne_zero (hp.targets _ hmet id hid), hlt, hu0⟩

theorem ahead_first : ahead (before (edgesAt g p) p.superRoot) 1 = 0 := by
  apply List.countP_eq_zero.mpr
  intro e he
  have hpos := (pos_of_mem_edges hp he).1
  rw [decide_eq_true_iff]
  omega

theorem ahead_last {key : Nat} (hkey : p.superRoot ≤ key) : ahead (before (edgesAt g p) p.superRoot) key =
    (before (edgesAt g p) p.superRoot).length := by
  apply List.countP_eq_length.mpr
  intro e he
  have hlt := (pos_of_mem_edges hp he).2.1
  exact decide_eq_true (by omega)

/-- An index that was made has no more edges than fit a word. -/
theorem edgeCount_le_of_ofSearch (hs : p.Sized g) (hreads : ∀ id, g.snapshot.breaksAt id = none)
    (hroots : g.roots.Pairwise (· < ·)) {room : Nat} {l : SearchLists} (hl : l.Finished g room p)
    {made : IndexLists × Slots} (h : ofSearch g room l = .ok made) : p.edgeCount ≤ wordMax := by
  unfold ofSearch at h
  rw [hl.objects, hl.numbers, hl.counts.1, hl.counts.2.1] at h
  obtain ⟨cardOffsets, -, h⟩ := ok_of_bind h
  obtain ⟨counts, hclear, h⟩ := ok_of_bind h
  obtain ⟨t, hnote, h⟩ := ok_of_bind h
  obtain ⟨cards, -, h⟩ := ok_of_bind h
  obtain ⟨⟨offsets, sum⟩, hsum, h⟩ := ok_of_bind h
  obtain ⟨stored, hstore, -⟩ := ok_of_bind h
  obtain ⟨-, hfits, -⟩ := Slots.store_of_ok hstore
  have hblank : counts = l.offsets.zero (p.superRoot + 2) := by
    unfold Slots.clear at hclear
    split at hclear
    · cases hclear
      rfl
    · cases hclear
  have hnodes : ∀ u ∈ List.range' 1 (p.superRoot - 1), u < p.superRoot := by
    intro u hu
    have hbounds := List.mem_range'_1.mp hu
    omega
  have hcounts : ∀ key, 0 ≤ key → key < 0 + (p.superRoot + 1) →
      t.counts.get key = (wordsOf (before (edgesAt g p) p.superRoot) key).length := by
    intro key _ hkey
    rw [counts_of_noteAll hs hreads hnodes hnote, hblank, Slots.get_zero, if_pos (by omega), Nat.zero_add]
    rfl
  -- the sum over all keys is the number of the edges, and it was stored as a word
  have hstart : sumUp t.counts (List.range' 0 (p.superRoot + 1))
      (ahead (before (edgesAt g p) p.superRoot) 0) = .ok (offsets, sum) := by
    rw [ahead_zero]
    exact hsum
  have hall := sumUp_of_ok hcounts hstart
  rw [ahead_last hp (by omega), length_before_edges hp hs hroots] at hall
  exact hall ▸ hfits

/-- At every place of a node lies one of its predecessors, and none of those is zero. -/
theorem Indexes.words_ne_zero {index : IndexLists} (h : index.Indexes g p) (h0 : 0 < node) (hlt : node < p.superRoot)
    {i : Nat} (hi : Places index.edges node i) : index.edges.words.get i ≠ 0 := by
  have hheld := h.edges node h0 hlt
  have hstop := hheld.stop
  obtain ⟨hge, hbelow⟩ := hi
  obtain ⟨k, rfl⟩ := Nat.exists_eq_add_of_le hge
  have hk : k < ((wordsOf (before (edgesAt g p) p.superRoot) node).mergeSort fun a b => a ≤ b).length := by
    omega
  have hword := hheld.words k _ (List.getElem?_eq_getElem hk)
  have hmem := List.mem_mergeSort.mp (List.getElem_mem hk)
  obtain ⟨e, he, heq⟩ := List.mem_map.mp hmem
  have hpos := (pos_of_mem_edges hp (List.mem_filter.mp he).1).2.2
  rw [hword, ← heq]
  exact Nat.ne_of_gt hpos

end

/-- The places of the nodes are those of the entries. -/
theorem Indexes.places_iff {index : IndexLists} (h : index.Indexes g p) (hlt : node < p.superRoot) {i : Nat} :
    Places index.edges node i ↔ ahead (before (edgesAt g p) p.superRoot) node ≤ i ∧
      i < ahead (before (edgesAt g p) p.superRoot) (node + 1) := by
  unfold Places
  rw [h.offsets node (by omega), h.offsets (node + 1) (by omega)]

/-- The places of the nodes follow one another, so every place is one of a single node. -/
theorem Indexes.existsUnique_place {index : IndexLists} (hp : p.Numbers g) (h : index.Indexes g p) {i : Nat}
    (hi : i < (before (edgesAt g p) p.superRoot).length) :
    ∃! node, (0 < node ∧ node < p.superRoot) ∧ Places index.edges node i := by
  have hlow : ahead (before (edgesAt g p) p.superRoot) 1 ≤ i := by
    rw [ahead_first hp]
    exact Nat.zero_le i
  have hhigh : i < ahead (before (edgesAt g p) p.superRoot) p.superRoot := by
    rwa [ahead_last hp (Nat.le_refl _)]
  obtain ⟨node, h0, hlt, hplace⟩ := exists_key hlow hhigh
  refine ⟨node, ⟨⟨h0, hlt⟩, (h.places_iff hlt).mpr hplace⟩, ?_⟩
  rintro other ⟨⟨-, hother⟩, hi⟩
  exact key_unique ((h.places_iff hother).mp hi) hplace

/-- What the stage has made when its index is made. The index could only be made because the edges fit a word,
and so it is the one that is described for that case. -/
theorem indexes_of_stage {graph : HeapGraph} {fresh run : Run} {traversal : Traversal} {space : ScratchSpace}
    {search : SearchLists} {index : IndexLists} {cursors : Slots} (hf : fresh.IsFresh)
    (ht : Traversed graph fresh run traversal) (hcount : fresh.objectCount ≤ wordMax)
    (hnumber : DominatorStage.number (.of run { graph } traversal)
      (DominatorStage.room (.of run { graph } traversal) traversal) space = .ok p)
    (hsearch : SearchLists.search (.of run { graph } traversal)
      (DominatorStage.room (.of run { graph } traversal) traversal) = .ok search)
    (hindex : ofSearch (.of run { graph } traversal)
      (DominatorStage.room (.of run { graph } traversal) traversal) search = .ok (index, cursors)) :
    p.Numbers (.of run { graph } traversal) ∧ p.Sized (.of run { graph } traversal) ∧
      index.Indexes (.of run { graph } traversal) p := by
  have hroots := @roots_ascend { graph } _ _ _ hf ht
  have htotal := @edgeTotal_le { graph } _ _ _ hf ht
  obtain ⟨w, segment, held, hw, -, rfl, -⟩ := exists_walk hf ht
  have hvisited : ∀ id ∈ (FlowGraph.of w.run { graph } traversal).roots,
      (FlowGraph.of w.run { graph } traversal).run.wasVisited id = true :=
    fun id hid => (List.mem_filter.mp hid).2
  have hroom : (FlowGraph.of w.run { graph } traversal).roots.length +
      (FlowGraph.of w.run { graph } traversal).edgeTotal ≤
        DominatorStage.room (.of w.run { graph } traversal) traversal := by
    unfold DominatorStage.room
    omega
  have hlong : DominatorStage.room (.of w.run { graph } traversal) traversal ≤ longMax := by
    unfold DominatorStage.number at hnumber
    split at hnumber
    · cases hnumber
    · next hle => exact Nat.not_lt.mp hle
  have hp := DominatorStage.number_ok hnumber
  have hn := Postorder.numbers_ofGraph hvisited hp
  obtain ⟨hs, hmet⟩ := Postorder.sized_ofGraph hvisited hp
  have hobjects : (FlowGraph.of w.run { graph } traversal).run.objectCount ≤ wordMax := by
    change w.run.objectCount ≤ wordMax
    rw [hw.visits.heap.objectCount]
    exact hcount
  obtain ⟨search', hsame, hfound⟩ := SearchLists.search_ok hvisited hroots hobjects hroom hlong hp
  obtain rfl : search' = search := Except.ok.inj (hsame.symm.trans hsearch)
  -- the edges are known to fit only from here, as the sum of all counts was stored
  have hword := edgeCount_le_of_ofSearch hn hs (fun _ => rfl) hroots hfound hindex
  obtain ⟨index', cursors', hmade, hheld, -⟩ :=
    ofSearch_ok hn hs (fun _ => rfl) hroots (Nat.le_trans hmet hroom) hword hfound
  obtain ⟨rfl, -⟩ := Prod.mk.inj (Except.ok.inj (hmade.symm.trans hindex))
  exact ⟨hn, hs, hheld⟩

end IndexLists

open IndexLists in
/-- Whenever the packed index is made it is complete. A node has its predecessors in ascending order and the
cards of its successors in slot order; no place is left between the predecessors of the nodes, no two nodes
share one, and together they take as many as the search has met edges. -/
theorem incoming_complete {graph : HeapGraph} {fresh run : Run} {traversal : Traversal} {space : ScratchSpace}
    {p : Postorder} {search : SearchLists} {index : IndexLists} {cursors : Slots} (hf : fresh.IsFresh)
    (ht : Traversed graph fresh run traversal) (hcount : fresh.objectCount ≤ wordMax)
    (hnumber : DominatorStage.number (.of run { graph } traversal)
      (DominatorStage.room (.of run { graph } traversal) traversal) space = .ok p)
    (hsearch : SearchLists.search (.of run { graph } traversal)
      (DominatorStage.room (.of run { graph } traversal) traversal) = .ok search)
    (hindex : IndexLists.ofSearch (.of run { graph } traversal)
      (DominatorStage.room (.of run { graph } traversal) traversal) search = .ok (index, cursors)) :
    (∀ node, 0 < node → node < p.superRoot →
      (∃ us, index.edges.range node = .ok us ∧ us.Pairwise (· ≤ ·) ∧
        us.Perm (predecessors (.of run { graph } traversal) p node)) ∧
      index.cards.range node = .ok (((FlowGraph.of run { graph } traversal).targets (p.objects.get node)).map
        fun id => (CardTable.covering p.superRoot).cardOf (p.numbers.get id))) ∧
    (∀ node, 0 < node → node < p.superRoot → ∀ i, Places index.edges node i →
      i < p.edgeCount ∧ index.edges.words.get i ≠ 0) ∧
    ∀ i < p.edgeCount, ∃! node, (0 < node ∧ node < p.superRoot) ∧ Places index.edges node i := by
  have hroots := @roots_ascend { graph } _ _ _ hf ht
  obtain ⟨hn, hs, hheld⟩ := indexes_of_stage hf ht hcount hnumber hsearch hindex
  have hlength := length_before_edges hn hs hroots
  refine ⟨fun node h0 hlt => ⟨?_, ?_⟩, fun node h0 hlt i hi => ⟨?_, hheld.words_ne_zero hn h0 hlt hi⟩,
    fun i hi => hheld.existsUnique_place hn (hi.trans_eq hlength.symm)⟩
  · refine ⟨_, (hheld.edges node h0 hlt).range_ok, sorted_mergeSort _, ?_⟩
    exact (List.mergeSort_perm _ _).trans (wordsOf_perm hn hroots h0 hlt)
  · rw [hheld.cards node h0 hlt]
    unfold successorCards successorNodes
    rw [List.map_map]
    rfl
  · have hplace := (hheld.places_iff hlt).mp hi
    have hle := ahead_le_length (before (edgesAt (.of run { graph } traversal) p) p.superRoot) (node + 1)
    omega

open IndexLists in
set_option maxRecDepth 10000 in
theorem incoming_complete_crossedHeap : crossedRun.IsFresh ∧ ∃ traversal p search index cursors,
    Traversed crossedHeap crossedRun crossedVisits traversal ∧ crossedRun.objectCount ≤ wordMax ∧
    DominatorStage.number (.of crossedVisits { graph := crossedHeap } traversal)
      (DominatorStage.room (.of crossedVisits { graph := crossedHeap } traversal) traversal)
      { available := .ok 1000 } = .ok p ∧
    SearchLists.search (.of crossedVisits { graph := crossedHeap } traversal)
      (DominatorStage.room (.of crossedVisits { graph := crossedHeap } traversal) traversal) = .ok search ∧
    IndexLists.ofSearch (.of crossedVisits { graph := crossedHeap } traversal)
      (DominatorStage.room (.of crossedVisits { graph := crossedHeap } traversal) traversal) search =
        .ok (index, cursors) ∧
    p.superRoot = 7 ∧ p.edgeCount = 9 ∧
    (∃ us, index.edges.range 4 = .ok us ∧ us.Pairwise (· ≤ ·) ∧
      us.Perm (predecessors (.of crossedVisits { graph := crossedHeap } traversal) p 4)) ∧
    ∃! node, (0 < node ∧ node < p.superRoot) ∧ Places index.edges node 8 := by
  have hdone : (crossedRun.traverse crossedHeap [] {}).result.toOption.any (fun traversal =>
      (DominatorStage.number (.of crossedVisits { graph := crossedHeap } traversal)
        (DominatorStage.room (.of crossedVisits { graph := crossedHeap } traversal) traversal)
        { available := .ok 1000 }).toOption.any fun p =>
      p.superRoot = 7 ∧ p.edgeCount = 9 ∧ traversal.summary.edgeCount +
        (FlowGraph.of crossedVisits { graph := crossedHeap } traversal).roots.length ≤ wordMax) = true := by
    decide +kernel
  obtain ⟨traversal, hresult, hdone⟩ := exists_ok_of_any hdone
  obtain ⟨p, hnumber, hdone⟩ := exists_ok_of_any hdone
  obtain ⟨hroot, hedges, hsmall⟩ := of_decide_eq_true hdone
  have ht : Traversed crossedHeap crossedRun crossedVisits traversal := traversed_of_result hresult
  have hcount : crossedRun.objectCount < wordMax := by decide
  have hg := fits_of_traversed crossedRun_isFresh ht hcount hsmall
  have hp := DominatorStage.number_ok hnumber
  obtain ⟨hs, hmet⟩ := Postorder.sized_ofGraph hg.visited hp
  have hlong := Nat.le_trans hg.room (show wordMax ≤ longMax by decide)
  have hfits := Nat.le_trans hmet hg.edges
  obtain ⟨search, hsearch, hfound⟩ :=
    SearchLists.search_ok hg.visited hg.sorted (Nat.le_of_lt hg.objects) hg.edges hlong hp
  obtain ⟨index, cursors, hindex, -⟩ := ofSearch_ok (Postorder.numbers_ofGraph hg.visited hp) hs hg.reads
    hg.sorted hfits (Nat.le_trans hfits hg.room) hfound
  obtain ⟨hnodes, -, hplaces⟩ :=
    incoming_complete crossedRun_isFresh ht (Nat.le_of_lt hcount) hnumber hsearch hindex
  exact ⟨crossedRun_isFresh, traversal, p, search, index, cursors, ht, Nat.le_of_lt hcount, hnumber, hsearch,
    hindex, hroot, hedges, (hnodes 4 (by decide) (by omega)).1, hplaces 8 (by omega)⟩

end HeapRetention
