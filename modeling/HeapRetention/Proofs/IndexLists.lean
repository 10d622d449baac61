import HeapRetention.Proofs.EdgeLists
import HeapRetention.Proofs.PackedLists
import HeapRetention.Proofs.SearchLists

/-! The edge index in the lists of the search, which are used once more: the edges lie where the frames were,
their offsets where those of the frames were. Every access is checked; the index is made without leaving a
list, and it holds the same edges and cards as `EdgeIndex`. -/
namespace HeapRetention

/-- The predecessors of the nodes, in ascending order, and the cards of their successors. -/
structure IndexLists where
  edges : PackedLists
  cards : PackedLists

namespace IndexLists
open PackedLists

/-- Whether the super root leads to a node, and where the node leads. -/
def outgoing (g : FlowGraph) (objects numbers : Slots) (node : Nat) : Except Crash (Bool × List Nat) := do
  let id ← objects.read node
  let successors ← g.successors id
  let ends ← successors.mapM numbers.read
  return (FlowGraph.contains g.roots.toArray id, ends)

/-- The edges that are met at a node; each belongs to the node that it leads to. -/
def entriesAt (superRoot node : Nat) (isRoot : Bool) (ends : List Nat) : List Entry :=
  (if isRoot then [(node, superRoot)] else []) ++ ends.map fun e => (e, node)

/-- The counts of the first pass over the nodes, and the cards that it has met. -/
structure Tally where
  counts : Slots
  cards : PackedLists
  refs : Nat := 0

/-- Counts the edges that are met at a node and notes the cards of its successors. -/
def Tally.note (g : FlowGraph) (objects numbers : Slots) (table : CardTable) (superRoot : Nat) (t : Tally)
    (node : Nat) : Except Crash Tally := do
  let (isRoot, ends) ← outgoing g objects numbers node
  let counts ← count t.counts (entriesAt superRoot node isRoot ends)
  let offsets ← t.cards.offsets.store node t.refs
  let words ← t.cards.words.storeAll t.refs (ends.map table.cardOf)
  let refs ← fit wordMax (t.refs + ends.length)
  return ⟨counts, ⟨offsets, words⟩, refs⟩

/-- The first pass over some nodes. -/
def Tally.noteAll (g : FlowGraph) (objects numbers : Slots) (table : CardTable) (superRoot : Nat) :
    Tally → (nodes : List Nat) → Except Crash Tally
  | t, [] => .ok t
  | t, node :: nodes => do
    let t ← t.note g objects numbers table superRoot node
    noteAll g objects numbers table superRoot t nodes

/-- The second pass over some nodes: every edge goes to its place. -/
def fillAll (g : FlowGraph) (objects numbers : Slots) (superRoot : Nat) :
    PackedLists → (cursors : Slots) → (nodes : List Nat) → Except Crash (PackedLists × Slots)
  | edges, cursors, [] => .ok (edges, cursors)
  | edges, cursors, node :: nodes => do
    let (isRoot, ends) ← outgoing g objects numbers node
    let (edges, cursors) ← edges.fill cursors (entriesAt superRoot node isRoot ends)
    fillAll g objects numbers superRoot edges cursors nodes

/-- The index after a search, and the list that becomes that of the immediate dominators. The edges need a
list of their own only if there are more than there is room for frames. -/
def ofSearch (g : FlowGraph) (room : Nat) (l : SearchLists) : Except Crash (IndexLists × Slots) := do
  let superRoot := l.next
  let nodes := List.range' 1 (superRoot - 1)
  let cardOffsets ← l.nodeStack.clear (superRoot + 1)
  let counts ← l.offsets.clear (superRoot + 2)
  let t ← Tally.noteAll g l.objects l.numbers (.covering superRoot) superRoot
    { counts, cards := ⟨cardOffsets, .create (max 1 l.edgeCount)⟩ } nodes
  let cardOffsets ← t.cards.offsets.store superRoot t.refs
  let (offsets, sum) ← sumUp t.counts (List.range' 0 (superRoot + 1)) 0
  let offsets ← offsets.store (superRoot + 1) sum
  let words ← if l.edgeCount ≤ room then l.childStack.clear l.edgeCount else .ok (.create (max 1 l.edgeCount))
  let cursors ← l.sizes.clear (superRoot + 1)
  let (edges, cursors) ← fillAll g l.objects l.numbers superRoot ⟨offsets, words⟩ cursors nodes
  let edges ← edges.sortRanges nodes
  return (⟨edges, ⟨cardOffsets, t.cards.words⟩⟩, cursors)

/-- The predecessors of a node, the largest first. -/
def incoming (l : IndexLists) (node : Nat) : Except Crash (List Nat) := do
  let vs ← l.edges.range node
  return vs.reverse

/-- The cards of the successors of a node. -/
def cardsAfter (l : IndexLists) (node : Nat) : Except Crash (List Nat) :=
  l.cards.range node

/-- What is met at the nodes before one. -/
def before {α : Type} (f : Nat → List α) (node : Nat) : List α :=
  (List.range' 1 (node - 1)).flatMap f

theorem before_succ {α : Type} (f : Nat → List α) {node : Nat} (h0 : 0 < node) :
    before f (node + 1) = before f node ++ f node := by
  have hrange : List.range' 1 node = List.range' 1 (node - 1) ++ [node] := by
    have happend := @List.range'_append_1 1 (node - 1) 1
    rw [show node - 1 + 1 = node by omega, show 1 + (node - 1) = node by omega] at happend
    exact happend.symm
  unfold before
  rw [Nat.add_sub_cancel, hrange, List.flatMap_append, List.flatMap_singleton]

/-- What is met at the nodes before one is met before any later one. -/
theorem exists_before_append {α : Type} (f : Nat → List α) {node other : Nat} (h0 : 0 < node)
    (h : node ≤ other) : ∃ left, before f other = before f node ++ left := by
  induction h with
  | refl => exact ⟨[], (List.append_nil _).symm⟩
  | @step other hle ih =>
    obtain ⟨left, hleft⟩ := ih
    refine ⟨left ++ f other, ?_⟩
    change before f (other + 1) = _
    rw [before_succ f (Nat.lt_of_lt_of_le h0 hle), hleft, List.append_assoc]

section
variable (g : FlowGraph) (p : Postorder)

/-- The successors of a node. -/
def successorNodes (node : Nat) : List Nat :=
  (g.targets (p.objects.get node)).map p.numbers.get

/-- Whether the super root leads to a node. -/
def isRootNode (node : Nat) : Bool :=
  FlowGraph.contains g.roots.toArray (p.objects.get node)

/-- The edges that are met at a node of the numbered graph. -/
def edgesAt (node : Nat) : List Entry :=
  entriesAt p.superRoot node (isRootNode g p node) (successorNodes g p node)

/-- The cards of the successors of a node. -/
def successorCards (node : Nat) : List Nat :=
  (successorNodes g p node).map (CardTable.covering p.superRoot).cardOf

end

variable {g : FlowGraph} {p : Postorder} {node n count : Nat} {t : Tally} {l : PackedLists}
  {cursors : Slots}

theorem edgesAt_eq (g : FlowGraph) (p : Postorder) (node : Nat) :
    entriesAt p.superRoot node (isRootNode g p node) (successorNodes g p node) = edgesAt g p node :=
  rfl

theorem successorCards_eq (g : FlowGraph) (p : Postorder) (node : Nat) :
    (successorNodes g p node).map (CardTable.covering p.superRoot).cardOf = successorCards g p node :=
  rfl

theorem length_edgesAt (g : FlowGraph) (p : Postorder) (node : Nat) :
    (edgesAt g p node).length =
      (if isRootNode g p node then 1 else 0) + (g.targets (p.objects.get node)).length := by
  unfold edgesAt entriesAt successorNodes
  rw [List.length_append, List.length_map, List.length_map]
  split <;> rfl

/-- The super root leads to as many nodes as it has roots. -/
theorem countP_isRootNode (hp : p.Numbers g) (hroots : g.roots.Pairwise (· < ·)) :
    p.nodes.countP (isRootNode g p) = g.roots.length := by
  have hperm : ((p.nodes.filter (isRootNode g p)).map p.objects.get).Perm g.roots := by
    have hnodup : ((p.nodes.filter (isRootNode g p)).map p.objects.get).Nodup :=
      (List.filter_sublist.map p.objects.get).nodup hp.nodup_numbered
    apply (List.perm_ext_iff_of_nodup hnodup (hroots.imp Nat.ne_of_lt)).mpr
    intro id
    constructor
    · intro hid
      obtain ⟨k, hk, rfl⟩ := List.mem_map.mp hid
      exact (FlowGraph.contains_iff hroots _).mp (List.mem_filter.mp hk).2
    · intro hid
      have hlt := hp.number_lt id
      have hne := hp.roots id hid
      have hobject := hp.object_number id hne
      refine List.mem_map.mpr ⟨p.numbers.get id, List.mem_filter.mpr ⟨?_, ?_⟩, hobject⟩
      · exact List.mem_range'_1.mpr (by omega)
      · unfold isRootNode
        rw [hobject]
        exact (FlowGraph.contains_iff hroots id).mpr hid
  rw [List.countP_eq_length_filter, ← List.length_map p.objects.get, hperm.length_eq]

/-- There are as many edges as the search has met. -/
theorem length_before_edges (hp : p.Numbers g) (hs : p.Sized g) (hroots : g.roots.Pairwise (· < ·)) :
    (before (edgesAt g p) p.superRoot).length = p.edgeCount := by
  have hnodes : List.range' 1 (p.superRoot - 1) = p.nodes := rfl
  have hones : (p.nodes.map fun node => if isRootNode g p node = true then 1 else 0).sum =
      p.nodes.countP (isRootNode g p) := by
    induction p.nodes with
    | nil => rfl
    | cons node nodes ih =>
      rw [List.map_cons, List.sum_cons, List.countP_cons, ih, Nat.add_comm]
  unfold before
  rw [List.length_flatMap, hnodes, hs.edges]
  simp only [length_edgesAt]
  rw [List.sum_map_add, hones, countP_isRootNode hp hroots]

theorem outgoing_ok (hs : p.Sized g) (hreads : ∀ id, g.snapshot.breaksAt id = none)
    (hlt : node < p.superRoot) :
    outgoing g p.objects p.numbers node = .ok (isRootNode g p node, successorNodes g p node) := by
  have hbound := hs.superRoot
  have hnumbered : ∀ id ∈ g.targets (p.objects.get node), id < p.numbers.capacity := by
    intro id hid
    have hle := (Postorder.Search.wasVisited_bounds (List.mem_filter.mp hid).2).2
    rw [hs.numbers]
    exact Nat.lt_add_right 2 (Nat.lt_succ_of_le hle)
  unfold outgoing FlowGraph.successors
  rw [Slots.read_ok (by rw [hs.objects]; omega), ok_bind, hreads, ok_bind, Slots.mapM_read_ok hnumbered,
    ok_bind]
  rfl

theorem mem_edgesAt (hp : p.Numbers g) (hlt : node < p.superRoot) {e : Entry}
    (he : e ∈ edgesAt g p node) : e.1 < p.superRoot ∧ e.2 ≤ p.superRoot := by
  unfold edgesAt entriesAt at he
  rcases List.mem_append.mp he with he | he
  · split at he
    · rw [List.mem_singleton.mp he]
      exact ⟨hlt, Nat.le_refl _⟩
    · cases he
  · obtain ⟨b, hb, rfl⟩ := List.mem_map.mp he
    obtain ⟨id, -, rfl⟩ := List.mem_map.mp hb
    exact ⟨hp.number_lt id, Nat.le_of_lt hlt⟩

/-- The first pass up to a node. -/
structure Noted (g : FlowGraph) (p : Postorder) (node : Nat) (t : Tally) : Prop where
  capacity : t.counts.capacity = g.run.objectCount + 3 ∧ t.cards.offsets.capacity = g.run.objectCount + 3 ∧
    t.cards.words.capacity = max 1 p.edgeCount
  counts : ∀ key ≤ p.superRoot + 1, t.counts.get key = (wordsOf (before (edgesAt g p) node) key).length
  refs : t.refs = (before (successorCards g p) node).length
  offsets : ∀ a, 0 < a → a < node → t.cards.offsets.get a = (before (successorCards g p) a).length
  words : ∀ i v, (before (successorCards g p) node)[i]? = some v → t.cards.words.get i = v

theorem length_before_cards (hs : p.Sized g) (h0 : 0 < node) (hlt : node ≤ p.superRoot) :
    (before (successorCards g p) node).length ≤ p.edgeCount := by
  obtain ⟨left, hleft⟩ := exists_before_append (successorCards g p) h0 hlt
  have hlength := congrArg List.length hleft
  have hall : (before (successorCards g p) p.superRoot).length =
      (p.nodes.map fun node => (g.targets (p.objects.get node)).length).sum := by
    unfold before successorCards successorNodes
    rw [List.length_flatMap]
    simp only [List.length_map]
    rfl
  rw [List.length_append] at hlength
  have hedges := hs.edges
  omega

theorem length_wordsOf_le (es : List Entry) (key : Nat) : (wordsOf es key).length ≤ es.length := by
  unfold wordsOf
  rw [List.length_map]
  exact List.length_filter_le _ _

/-- The edges that are met at a node are counted; a count never exceeds the number of all edges. -/
theorem Noted.count_ok (hp : p.Numbers g) (hs : p.Sized g) (hroots : g.roots.Pairwise (· < ·))
    (hword : p.edgeCount ≤ wordMax) (h : Noted g p node t) (h0 : 0 < node) (hlt : node < p.superRoot) :
    ∃ counts, PackedLists.count t.counts (edgesAt g p node) = .ok counts ∧
      counts.capacity = t.counts.capacity ∧
      ∀ key, counts.get key = t.counts.get key + (wordsOf (edgesAt g p node) key).length := by
  have hcounts := h.capacity.1
  have hbound := hs.superRoot
  have hall : (before (edgesAt g p) (node + 1)).length ≤ p.edgeCount := by
    obtain ⟨left, hleft⟩ := exists_before_append (edgesAt g p) (Nat.succ_pos node) hlt
    rw [← length_before_edges hp hs hroots, hleft, List.length_append]
    exact Nat.le_add_right _ _
  refine PackedLists.count_ok (fun e he => ?_) fun e he => ?_
  · have hkey := (mem_edgesAt hp hlt he).1
    omega
  · have hkey := Nat.le_of_lt (mem_edgesAt hp hlt he).1
    calc t.counts.get e.1 + (wordsOf (edgesAt g p node) e.1).length
      _ = (wordsOf (before (edgesAt g p) (node + 1)) e.1).length := by
          rw [h.counts e.1 (by omega), before_succ (edgesAt g p) h0, wordsOf_append, List.length_append]
      _ ≤ (before (edgesAt g p) (node + 1)).length := length_wordsOf_le _ _
      _ ≤ wordMax := Nat.le_trans hall hword

section
variable (hp : p.Numbers g) (hs : p.Sized g) (hreads : ∀ id, g.snapshot.breaksAt id = none)
  (hroots : g.roots.Pairwise (· < ·)) (hword : p.edgeCount ≤ wordMax)
include hp hs hreads hroots hword

/-- A node is noted without leaving the lists. -/
theorem Noted.note (h : Noted g p node t) (h0 : 0 < node) (hlt : node < p.superRoot) :
    ∃ t', t.note g p.objects p.numbers (.covering p.superRoot) p.superRoot node = .ok t' ∧
      Noted g p (node + 1) t' := by
  obtain ⟨hcounts, hoffsets, hwords⟩ := h.capacity
  have hbound := hs.superRoot
  have hrefs := before_succ (successorCards g p) h0
  have hrefsLength := congrArg List.length hrefs
  rw [List.length_append] at hrefsLength
  have hfits : (before (successorCards g p) (node + 1)).length ≤ p.edgeCount :=
    length_before_cards hs (Nat.succ_pos node) hlt
  obtain ⟨counts, hcounted, hsame, hget⟩ := h.count_ok hp hs hroots hword h0 hlt
  have hshort : ∀ v ∈ successorCards g p node, v ≤ wordMax := by
    intro v hv
    obtain ⟨b, -, rfl⟩ := List.mem_map.mp hv
    have hcard : (CardTable.covering p.superRoot).cardOf b < shortMax + 1 := Nat.mod_lt _ (Nat.succ_pos _)
    have hword : shortMax ≤ wordMax := by decide
    omega
  -- the cards of the node come behind those of the nodes before it
  obtain ⟨words, hstored, hkept, hinside, houtside⟩ :=
    @Slots.storeAll_ok t.cards.words t.refs (successorCards g p node) (by rw [h.refs]; omega) hshort
  have hlength : (successorNodes g p node).length = (successorCards g p node).length :=
    (List.length_map _).symm
  refine ⟨⟨counts, ⟨t.cards.offsets.put node t.refs, words⟩, t.refs + (successorNodes g p node).length⟩,
    ?_, ?_⟩
  · unfold Tally.note
    rw [outgoing_ok hs hreads hlt, ok_bind]
    dsimp only
    rw [edgesAt_eq, hcounted, ok_bind, Slots.store_ok (by omega) (by rw [h.refs]; omega), ok_bind,
      successorCards_eq, hstored, ok_bind, fit_ok (by rw [hlength, h.refs]; omega)]
    rfl
  · have hcapacity := And.intro ((Slots.capacity_put _ node t.refs).trans hoffsets) (hkept.trans hwords)
    exact {
      capacity := ⟨hsame.trans hcounts, hcapacity⟩
      counts := by
        intro key hkey
        rw [hget, h.counts key hkey, before_succ (edgesAt g p) h0, wordsOf_append, List.length_append]
      refs := by
        rw [hrefs, List.length_append, ← hlength, ← h.refs]
      offsets := by
        intro a ha0 ha
        dsimp only
        by_cases he : node = a
        · rw [← he, Slots.get_put_self (by omega), h.refs]
        · rw [Slots.get_put_of_ne he]
          exact h.offsets a ha0 (by omega)
      words := by
        have hrow : Row t.cards.words.get (before (successorCards g p) node) := h.words
        rw [hrefs]
        refine row_append_iff.mpr ⟨hrow.congr fun i hi => houtside i (Or.inl ?_), ?_⟩
        · rw [h.refs]
          exact hi
        · rw [← h.refs]
          exact hinside }

theorem Noted.noteAll (h : Noted g p node t) (h0 : 0 < node) (hlast : node + count ≤ p.superRoot) :
    ∃ t', t.noteAll g p.objects p.numbers (.covering p.superRoot) p.superRoot (List.range' node count) =
        .ok t' ∧ Noted g p (node + count) t' := by
  induction count generalizing node t with
  | zero => exact ⟨t, rfl, h⟩
  | succ count ih =>
    obtain ⟨next, hnext, hnoted⟩ := h.note hp hs hreads hroots hword h0 (by omega)
    obtain ⟨last, hlast, hdone⟩ := ih hnoted (Nat.succ_pos node) (by omega)
    rw [List.range'_succ, Tally.noteAll, hnext, ok_bind]
    rw [Nat.add_right_comm] at hdone
    exact ⟨last, hlast, hdone⟩

/-- The edges that are met at the nodes from one on come to their places. -/
theorem fillAll_ok
    (h : Filling (before (edgesAt g p) p.superRoot) (before (edgesAt g p) node) (p.superRoot + 1) l cursors)
    (h0 : 0 < node) (hlast : node + count = p.superRoot) :
    ∃ l' cursors',
      fillAll g p.objects p.numbers p.superRoot l cursors (List.range' node count) = .ok (l', cursors') ∧
      cursors'.capacity = cursors.capacity ∧
      Filling (before (edgesAt g p) p.superRoot) (before (edgesAt g p) p.superRoot) (p.superRoot + 1) l'
        cursors' := by
  -- from node to node, with the entries of the nodes before as those that have their place
  induction count generalizing node l cursors with
  | zero =>
    rw [Nat.add_zero] at hlast
    rw [hlast] at h
    exact ⟨l, cursors, rfl, rfl, h⟩
  | succ count ih =>
    have hlt : node < p.superRoot := by omega
    have hbound := hs.superRoot
    obtain ⟨left, hleft⟩ := exists_before_append (edgesAt g p) (Nat.succ_pos node) hlt
    rw [before_succ (edgesAt g p) h0, List.append_assoc] at hleft
    obtain ⟨next, moved, hnext, hsame, hfilling⟩ := h.fill_ok hleft.symm
      (fun e he => Nat.lt_succ_of_lt (mem_edgesAt hp hlt he).1)
      (fun e he => Nat.le_trans (mem_edgesAt hp hlt he).2 hs.word)
      (Nat.le_trans (Nat.le_of_eq (length_before_edges hp hs hroots)) hword)
    rw [← before_succ (edgesAt g p) h0] at hfilling
    obtain ⟨last, cursors', hdone, hkept, hfilled⟩ := ih hfilling (Nat.succ_pos node) (by omega)
    refine ⟨last, cursors', ?_, hkept.trans hsame, hfilled⟩
    rw [List.range'_succ, fillAll, outgoing_ok hs hreads hlt, ok_bind]
    dsimp only
    rw [edgesAt_eq, hnext, ok_bind]
    exact hdone

end

theorem noted_start {offsets nodeStack : Slots} (hoffsets : offsets.capacity = g.run.objectCount + 3)
    (hstack : nodeStack.capacity = g.run.objectCount + 3) :
    Noted g p 1 { counts := offsets.zero (p.superRoot + 2)
                  cards := ⟨nodeStack.zero (p.superRoot + 1), .create (max 1 p.edgeCount)⟩ } := by
  refine ⟨⟨hoffsets, hstack, rfl⟩, ?_, rfl, ?_, ?_⟩
  · intro key hkey
    dsimp only
    rw [Slots.get_zero, if_pos (by omega)]
    rfl
  · intro a h0 ha
    omega
  · intro i v hv
    cases hv

/-- Once all nodes are noted, a node has its cards between its offset and the next. -/
theorem Noted.holds (h : Noted g p p.superRoot t) (hs : p.Sized g) (h0 : 0 < node)
    (hlt : node < p.superRoot) :
    (PackedLists.mk (t.cards.offsets.put p.superRoot t.refs) t.cards.words).Holds node
      (successorCards g p node) := by
  obtain ⟨-, hoffsets, hwords⟩ := h.capacity
  have hbound := hs.superRoot
  have hget : ∀ a, 0 < a → a ≤ p.superRoot →
      (t.cards.offsets.put p.superRoot t.refs).get a = (before (successorCards g p) a).length := by
    intro a ha0 ha
    by_cases he : p.superRoot = a
    · rw [← he, Slots.get_put_self (by omega), h.refs]
    · rw [Slots.get_put_of_ne he]
      exact h.offsets a ha0 (by omega)
  have hmore := before_succ (successorCards g p) h0
  have hfits := length_before_cards hs (Nat.succ_pos node) hlt
  exact {
    capacity := by
      dsimp only
      rw [Slots.capacity_put]
      omega
    stop := by
      dsimp only
      rw [hget _ (Nat.succ_pos node) hlt, hget node h0 (Nat.le_of_lt hlt), hmore, List.length_append]
    within := by
      dsimp only
      rw [hget _ (Nat.succ_pos node) hlt, hwords]
      exact Nat.le_trans hfits (Nat.le_max_right _ _)
    words := by
      obtain ⟨left, hleft⟩ := exists_before_append (successorCards g p) (Nat.succ_pos node) hlt
      have hrow : Row t.cards.words.get (before (successorCards g p) p.superRoot) := h.words
      rw [hleft, hmore, row_append_iff, row_append_iff] at hrow
      dsimp only
      rw [hget node h0 (Nat.le_of_lt hlt)]
      exact hrow.1.2 }

/-- With the sums of the counts for offsets the lists are ready for the edges, none of which is filled in. -/
theorem filling_start {es : List Entry} {keys : Nat} {offsets words sizes : Slots}
    (hoffsets : keys < offsets.capacity) (hsizes : keys ≤ sizes.capacity) (hwords : es.length ≤ words.capacity)
    (hget : ∀ key < keys, offsets.get key = ahead es key) :
    Filling es [] keys ⟨offsets.put keys (ahead es keys), words⟩ (sizes.zero keys) where
  capacity := ⟨Nat.lt_of_lt_of_eq hoffsets (Slots.capacity_put _ _ _).symm, hsizes⟩
  within := hwords
  offsets key hkey := by
    dsimp only
    by_cases he : keys = key
    · rw [← he, Slots.get_put_self hoffsets]
    · rw [Slots.get_put_of_ne he]
      exact hget key (by omega)
  cursors key hkey := by
    rw [Slots.get_zero, if_pos hkey]
    rfl
  words key hkey i v hv := by cases hv

/-- Predecessors are nodes or the super root, so each of them is a word. -/
theorem word_of_before (hp : p.Numbers g) (hs : p.Sized g) {key v : Nat}
    (hv : v ∈ wordsOf (before (edgesAt g p) p.superRoot) key) : v ≤ wordMax := by
  obtain ⟨e, he, rfl⟩ := List.mem_map.mp hv
  obtain ⟨node, hnode, hin⟩ := List.mem_flatMap.mp (List.mem_filter.mp he).1
  have hlt := List.mem_range'_1.mp hnode
  have hle := (mem_edgesAt hp (by omega) hin).2
  exact Nat.le_trans hle hs.word

/-- Lists that hold the index of a numbering. -/
structure Indexes (l : IndexLists) (g : FlowGraph) (p : Postorder) : Prop where
  edges : ∀ node, 0 < node → node < p.superRoot → l.edges.Holds node
    ((wordsOf (before (edgesAt g p) p.superRoot) node).mergeSort fun a b => a ≤ b)
  offsets : ∀ key ≤ p.superRoot + 1, l.edges.offsets.get key = ahead (before (edgesAt g p) p.superRoot) key
  cards : ∀ node, 0 < node → node < p.superRoot → l.cards.range node = .ok (successorCards g p node)
  capacity : l.cards.offsets.capacity = g.run.objectCount + 3

/-- After a search the index is made without leaving the lists. -/
theorem ofSearch_ok (hp : p.Numbers g) (hs : p.Sized g) (hreads : ∀ id, g.snapshot.breaksAt id = none)
    (hroots : g.roots.Pairwise (· < ·)) {room : Nat} (hroom : p.edgeCount ≤ room)
    (hedges : p.edgeCount ≤ wordMax) {l : SearchLists} (hl : l.Finished g room p) :
    ∃ index idoms, ofSearch g room l = .ok (index, idoms) ∧ index.Indexes g p ∧
      idoms.capacity = g.run.objectCount + 3 := by
  obtain ⟨hstack, hoffsets, hsizes, hchild⟩ := hl.capacity
  have hbound := hs.superRoot
  have hpos := hp.superRoot_pos
  have hword := hs.word
  have hlast : 1 + (p.superRoot - 1) = p.superRoot := by omega
  have hall := Nat.le_of_eq (length_before_edges hp hs hroots)
  -- the first pass
  obtain ⟨t, hnote, hnoted⟩ := (@noted_start g p _ _ hoffsets hstack).noteAll hp hs hreads hroots hedges
    Nat.one_pos (Nat.le_of_eq hlast)
  rw [hlast] at hnoted
  have hcapacity := hnoted.capacity
  have hrefs := length_before_cards hs hpos (Nat.le_refl _)
  obtain ⟨offsets, hsum, hsame, hget, -⟩ := @sumUp_ok t.counts (before (edgesAt g p) p.superRoot) 0
    (p.superRoot + 1) (by omega) (Nat.le_trans hall hedges) fun key _ hkey => hnoted.counts key (by omega)
  rw [Nat.zero_add, ahead_zero] at hsum
  -- the second pass
  have hchildren : (before (edgesAt g p) p.superRoot).length ≤ (l.childStack.zero p.edgeCount).capacity := by
    change _ ≤ l.childStack.capacity
    omega
  have hfilling : Filling (before (edgesAt g p) p.superRoot) (before (edgesAt g p) 1) (p.superRoot + 1) _ _ :=
    @filling_start _ _ offsets _ l.sizes (by omega) (by omega) hchildren
      fun key hkey => hget key (Nat.zero_le key) (by omega)
  obtain ⟨edges, idoms, hfill, hkept, hfilled⟩ :=
    fillAll_ok hp hs hreads hroots hedges hfilling Nat.one_pos hlast
  -- the predecessors are sorted
  have hnodes : ∀ key ∈ List.range' 1 (p.superRoot - 1), key < p.superRoot + 1 := by
    intro key hkey
    have hlt := List.mem_range'_1.mp hkey
    omega
  obtain ⟨sorted, hsort, hheld⟩ := sortRanges_ok (fun key hkey => hfilled.holds hkey)
    (fun key _ v hv => word_of_before hp hs hv) hnodes List.nodup_range'
  refine ⟨⟨sorted, ⟨t.cards.offsets.put p.superRoot t.refs, t.cards.words⟩⟩, idoms, ?_, ⟨?_, ?_, ?_, ?_⟩,
    hkept.trans hsizes⟩
  · unfold ofSearch
    rw [hl.objects, hl.numbers, hl.counts.1, hl.counts.2.1]
    dsimp only
    have htop := Nat.le_trans (ahead_le_length (before (edgesAt g p) p.superRoot) (p.superRoot + 1))
      (Nat.le_trans hall hedges)
    rw [Slots.clear_ok (by omega), ok_bind, Slots.clear_ok (by omega), ok_bind, hnote, ok_bind,
      Slots.store_ok (by omega) (by rw [hnoted.refs]; omega), ok_bind, hsum, ok_bind,
      Slots.store_ok (by dsimp only; omega) htop, ok_bind, if_pos hroom, Slots.clear_ok (by omega), ok_bind,
      Slots.clear_ok (by omega), ok_bind, hfill, ok_bind, hsort]
    rfl
  · intro node h0 hlt
    have hthis := hheld node (by omega)
    rw [if_pos (List.mem_range'_1.mpr ⟨h0, by omega⟩)] at hthis
    exact hthis
  · intro key hkey
    dsimp only
    rw [offsets_sortRanges hsort, hfilled.offsets key hkey]
  · intro node h0 hlt
    exact (hnoted.holds hs h0 hlt).range_ok
  · exact (Slots.capacity_put _ _ _).trans hcapacity.2.1

/-- The words of a node are those of all edges that lead to it. -/
theorem wordsOf_flatMap (f : Nat → List Entry) (nodes : List Nat) (key : Nat) :
    wordsOf (nodes.flatMap f) key = nodes.flatMap fun node => wordsOf (f node) key := by
  induction nodes with
  | nil => rfl
  | cons node nodes ih => rw [List.flatMap_cons, List.flatMap_cons, wordsOf_append, ih]

theorem wordsOf_map_pair (ends : List Nat) (node key : Nat) :
    wordsOf (ends.map fun e => (e, node)) key = List.replicate (ends.count key) node := by
  induction ends with
  | nil => rfl
  | cons e ends ih =>
    rw [List.map_cons, wordsOf_cons, ih]
    by_cases he : e = key
    · rw [if_pos he, he, List.count_cons_self, List.replicate_succ]
      rfl
    · rw [if_neg he, List.count_cons_of_ne he]
      rfl

theorem wordsOf_edgesAt (g : FlowGraph) (p : Postorder) (node key : Nat) :
    wordsOf (edgesAt g p node) key =
      (if node = key ∧ isRootNode g p node = true then [p.superRoot] else []) ++
        List.replicate ((successorNodes g p node).count key) node := by
  unfold edgesAt entriesAt
  rw [wordsOf_append, wordsOf_map_pair]
  congr 1
  by_cases hroot : isRootNode g p node = true
  · simp only [hroot, if_true, and_true]
    exact (wordsOf_cons _ _ _).trans (List.append_nil _)
  · rw [if_neg hroot, if_neg fun h => hroot h.2]
    rfl

/-- The super root comes once to a node that it leads to. -/
theorem flatMap_roots {nodes : List Nat} (hnodup : nodes.Nodup) (root key : Nat) (test : Nat → Bool) :
    (nodes.flatMap fun node => if node = key ∧ test node = true then [root] else []) =
      if key ∈ nodes ∧ test key = true then [root] else [] := by
  induction nodes with
  | nil => simp only [List.flatMap_nil, List.not_mem_nil, false_and, if_false]
  | cons node nodes ih =>
    obtain ⟨hnot, hrest⟩ := List.nodup_cons.mp hnodup
    rw [List.flatMap_cons, ih hrest]
    by_cases he : node = key
    · subst he
      simp only [hnot, true_and, false_and, if_false, List.append_nil, List.mem_cons_self]
    · simp only [he, false_and, if_false, List.nil_append, List.mem_cons, Ne.symm he, false_or]

variable {x y : EdgeIndex} {table : CardTable}

/-- The nodes that are added come to the front of the lists of their successors. -/
theorem addNodes_lists (hsize : x.predecessors.size = p.superRoot + 1)
    (hcards : x.successorCards.size = p.superRoot + 1) (hlast : n + count ≤ p.superRoot)
    (hrun : EdgeIndex.addNodes g p table x (List.range' n count) = .ok y) :
    y.predecessors.size = p.superRoot + 1 ∧
    (∀ key ≤ p.superRoot, (y.incoming key).Perm (x.incoming key ++
      (List.range' n count).flatMap fun node => List.replicate ((successorNodes g p node).count key) node)) ∧
    ∀ node, y.cardsAfter node = if n ≤ node ∧ node < n + count then (successorNodes g p node).map table.cardOf
      else x.cardsAfter node := by
  induction count generalizing x n with
  | zero =>
    cases hrun
    refine ⟨hsize, ?_, ?_⟩
    · intro key _
      rw [List.range'_zero, List.flatMap_nil, List.append_nil]
    · intro node
      rw [if_neg (by omega)]
  | succ count ih =>
    rw [List.range'_succ, EdgeIndex.addNodes] at hrun
    split at hrun
    · cases hrun
    · next successors hsucc =>
      rw [FlowGraph.targets_of_successors hsucc] at hrun
      have hgrown : (x.addNode table n (successorNodes g p n)).predecessors.size = p.superRoot + 1 :=
        (EdgeIndex.size_foldl_modify _ _ _).trans hsize
      have hnoted : (x.addNode table n (successorNodes g p n)).successorCards.size = p.superRoot + 1 :=
        Array.size_modify.trans hcards
      obtain ⟨hdone, hincoming, hafter⟩ := ih hgrown hnoted (by omega) hrun
      refine ⟨hdone, ?_, ?_⟩
      · intro key hkey
        have hrest := hincoming key hkey
        rw [x.incoming_addNode _ _ _ (by rw [hsize]; omega)] at hrest
        rw [List.range'_succ, List.flatMap_cons, ← List.append_assoc]
        exact hrest.trans (List.perm_append_comm.append_right _)
      · intro node
        rw [hafter, x.cardsAfter_addNode _ _ _ (by rw [hcards]; omega)]
        -- later nodes do not touch the cards of this one
        by_cases he : n = node
        · subst he
          rw [if_neg (by omega), if_pos rfl, if_pos (by omega)]
        · rw [if_neg he]
          by_cases hin : n + 1 ≤ node ∧ node < n + 1 + count
          · rw [if_pos hin, if_pos (by omega)]
          · rw [if_neg hin, if_neg (by omega)]

/-- The index of the numbered graph has the same edges and cards. -/
theorem lists_ofGraph (hpos : 0 < p.superRoot) (hx : EdgeIndex.ofGraph g p (.covering p.superRoot) = .ok x)
    (h0 : 0 < node) (hlt : node < p.superRoot) :
    (x.incoming node).Perm (wordsOf (before (edgesAt g p) p.superRoot) node) ∧
      x.cardsAfter node = successorCards g p node := by
  unfold EdgeIndex.ofGraph at hx
  split at hx
  · cases hx
  · next y hy =>
    cases hx
    obtain ⟨hsize, hincoming, hcards⟩ := addNodes_lists Array.size_replicate Array.size_replicate
      (show 1 + (p.superRoot - 1) ≤ p.superRoot by omega) hy
    have hin : node ∈ List.range' 1 (p.superRoot - 1) := List.mem_range'_1.mpr ⟨h0, by omega⟩
    constructor
    · have hroots : (y.addRoots g p).incoming node =
          (if node ∈ List.range' 1 (p.superRoot - 1) ∧ isRootNode g p node = true then [p.superRoot]
            else []) ++ y.incoming node := by
        rw [EdgeIndex.incoming_addRoots hsize h0 hlt]
        simp only [hin, true_and]
        unfold isRootNode
        split <;> rfl
      have hnodes := hincoming node (Nat.le_of_lt hlt)
      rw [EdgeIndex.incoming_empty, List.nil_append] at hnodes
      unfold before
      rw [hroots, wordsOf_flatMap, ← flatMap_roots List.nodup_range' p.superRoot node (isRootNode g p)]
      simp only [wordsOf_edgesAt]
      exact (hnodes.append_left _).trans (List.flatMap_append_perm _ _ _)
    · have hthis := hcards node
      rw [if_pos ⟨h0, by omega⟩] at hthis
      exact hthis

/-- The lists show the predecessors and cards of every node as the index has them. -/
theorem Indexes.reads {l : IndexLists} (h : l.Indexes g p) (hp : p.Numbers g)
    (hroots : g.roots.Pairwise (· < ·)) (hx : EdgeIndex.ofGraph g p (.covering p.superRoot) = .ok x)
    (h0 : 0 < node) (hlt : node < p.superRoot) :
    l.incoming node = .ok (x.incoming node) ∧ l.cardsAfter node = .ok (x.cardsAfter node) := by
  obtain ⟨hperm, hcards⟩ := lists_ofGraph hp.superRoot_pos hx h0 hlt
  constructor
  · have hdescending := (EdgeIndex.describes_ofGraph hp hroots hx).descending node h0 hlt
    -- sorted lists of the same numbers are equal
    have hsorted : (wordsOf (before (edgesAt g p) p.superRoot) node).mergeSort (fun a b => a ≤ b) =
        (x.incoming node).reverse := by
      apply List.Perm.eq_of_pairwise (fun _ _ _ _ => Nat.le_antisymm) (sorted_mergeSort _)
      · exact List.pairwise_reverse.mpr hdescending
      · exact (List.mergeSort_perm _ _).trans (hperm.symm.trans (List.reverse_perm _).symm)
    unfold incoming
    rw [(h.edges node h0 hlt).range_ok, hsorted, ok_bind, List.reverse_reverse]
    rfl
  · rw [hcards]
    exact h.cards node h0 hlt

end IndexLists
end HeapRetention
