import HeapRetention.Dominance.Stage
import HeapRetention.Proofs.PassLists
import HeapRetention.Proofs.RetainedSums

/-! The dominator stage over its scratch lists from end to end. After the passes the retained sizes take the
list where the offsets of the cards were, and the lines of the flame graph are read from there. Every
access is checked and so is every sum; the stage never leaves its lists, and they show the tree of
`DominatorStage`. -/
namespace HeapRetention

/-- A graph whose numbers fit their words, with room for all of its edges. -/
structure FlowGraph.Fits (g : FlowGraph) (room : Nat) : Prop where
  visited : ∀ id ∈ g.roots, g.run.wasVisited id = true
  sorted : g.roots.Pairwise (· < ·)
  reads : ∀ id, g.snapshot.breaksAt id = none
  objects : g.run.objectCount < wordMax
  sizes : g.run.sizes.capacity = g.run.objectCount + 2
  units : ∀ id, g.run.wasVisited id = true → g.run.sizeUnits id ≤ wordMax
  edges : g.roots.length + g.edgeTotal ≤ room
  room : room ≤ wordMax

/-- What the stage leaves in its lists. -/
structure TreeLists where
  search : SearchLists
  idoms : Slots
  retained : Slots
  counts : PassCounts
  iterations : Nat
  lines : List FlameLine

namespace TreeLists

/-- The size of an object. -/
def sizeUnits (run : Run) (id : ObjectId) : Except Crash Nat :=
  if run.isValid id then run.sizes.read id else .ok 0

/-- Every node gets the size of its own object. -/
def own (run : Run) (objects : Slots) : Slots → (nodes : List Nat) → Except Crash Slots
  | sizes, [] => .ok sizes
  | sizes, node :: nodes => do
    let id ← objects.read node
    let units ← sizeUnits run id
    let sizes ← sizes.store node units
    own run objects sizes nodes

/-- The size of every node goes to its immediate dominator. -/
def foldUp (idoms : Slots) : Slots → (nodes : List Nat) → Except Crash Slots
  | sizes, [] => .ok sizes
  | sizes, node :: nodes => do
    let idom ← idoms.read node
    let sum ← sizes.read idom
    let units ← sizes.read node
    let sizes ← sizes.store idom (addUnits sum units)
    foldUp idoms sizes nodes

/-- The nodes that are large enough to show, under their immediate dominators. -/
def keep (superRoot minBytes : Nat) (idoms retained : Slots) :
    (nodes : List Nat) → Except Crash (Array (List Nat))
  | [] => .ok (Array.replicate (superRoot + 1) [])
  | node :: nodes => do
    let below ← keep superRoot minBytes idoms retained nodes
    let units ← retained.read node
    let bytes ← fit longMax (units * 4)
    if minBytes ≤ bytes then
      let idom ← idoms.read node
      return below.modify idom (node :: ·)
    else return below

/-- Adds up retained sizes. -/
def addAll (retained : Slots) : (nodes : List Nat) → (sum : Nat) → Except Crash Nat
  | [], sum => .ok sum
  | node :: nodes, sum => do
    let units ← retained.read node
    let sum ← fit longMax (sum + units)
    addAll retained nodes sum

/-- The bytes of a node that no line below it shows. -/
def ownBytes (retained : Slots) (below : Array (List Nat)) (levels node : Nat) : Except Crash Nat := do
  let units ← retained.read node
  if levels = 0 then fit longMax (units * 4)
  else
    let shown ← addAll retained (below.getD node []) 0
    fit longMax ((units - shown) * 4)

/-- The lines of all nodes below a node. -/
def linesBelow (graph : HeapGraph) (objects retained : Slots) (below : Array (List Nat)) :
    (levels : Nat) → (frames : List String) → (node : Nat) → (tail : List FlameLine) →
      Except Crash (List FlameLine)
  | 0, _, _, tail => .ok tail
  | levels + 1, frames, node, tail =>
    ((below.getD node []).mergeSort (largerFirst retained.get)).foldrM
      (fun child tail => do
        let id ← objects.read child
        let bytes ← ownBytes retained below levels child
        let frames := FlameGraph.frameName graph id :: frames
        linesBelow graph objects retained below levels frames child (⟨frames, bytes⟩ :: tail)) tail

/-- The whole stage. -/
def compute (g : FlowGraph) (room : Nat) : Except Failure TreeLists := do
  let search ← SearchLists.search g room
  let superRoot := search.next
  let nodes := List.range' 1 (superRoot - 1)
  let (index, cursors) ← IndexLists.ofSearch g room search
  let blank ← cursors.clear (superRoot + 1)
  let idoms ← blank.store superRoot superRoot
  let o := g.run.config.dominator
  let (f, iterations) ← PassLists.solve index superRoot o.maxDominatorIterations 0
    { idoms, cards := .covering superRoot }
  let sizes ← index.cards.offsets.clear (superRoot + 1)
  let sizes ← own g.run search.objects sizes nodes
  let retained ← foldUp f.idoms sizes nodes
  let below ← keep superRoot o.minNodeSize f.idoms retained nodes
  let lines ← linesBelow g.snapshot.graph search.objects retained below o.maxDepth [] superRoot []
  return { search, idoms := f.idoms, retained, counts := f.counts, iterations, lines }

variable {g : FlowGraph} {p : Postorder} {idoms idoms' retained retained' sizes sizes' : Slots}
  {n count node : Nat}

theorem sizeUnits_ok (hsizes : g.run.sizes.capacity = g.run.objectCount + 2) (id : Nat) :
    sizeUnits g.run id = .ok (g.run.sizeUnits id) := by
  unfold sizeUnits Run.sizeUnits
  by_cases hvalid : g.run.isValid id = true
  · have hle : id ≤ g.run.objectCount := by
      unfold Run.isValid at hvalid
      exact of_decide_eq_true (Bool.and_eq_true_iff.mp hvalid).2
    rw [if_pos hvalid, if_pos hvalid, Slots.read_ok (by omega)]
  · rw [if_neg hvalid, if_neg hvalid]

/-- The sizes of the objects are found in their lists and written to those of the nodes. -/
theorem own_ok (hs : p.Sized g) (hsizes : g.run.sizes.capacity = g.run.objectCount + 2)
    (hunits : ∀ n, 0 < n → n < p.superRoot → g.run.sizeUnits (p.objects.get n) ≤ wordMax)
    (h : sizes.SameTo p.superRoot sizes') (h0 : 0 < n) (hlast : n + count ≤ p.superRoot) :
    ∃ last, own g.run p.objects sizes (List.range' n count) = .ok last ∧ last.SameTo p.superRoot
      ((List.range' n count).foldl
        (fun sizes node => sizes.put node (g.run.sizeUnits (p.objects.get node))) sizes') := by
  induction count generalizing n sizes sizes' with
  | zero => exact ⟨sizes, rfl, h⟩
  | succ count ih =>
    have hbound := hs.superRoot
    have hput := h.put n (g.run.sizeUnits (p.objects.get n))
    obtain ⟨last, hlast, hsame⟩ := ih hput (Nat.succ_pos n) (by omega)
    refine ⟨last, ?_, hsame⟩
    rw [List.range'_succ, own, Slots.read_ok (by rw [hs.objects]; omega), ok_bind, sizeUnits_ok hsizes,
      ok_bind, h.store_ok (by omega) (hunits n h0 (by omega)), ok_bind, hlast]

/-- Sums stop at the largest word, so they always fit. -/
theorem foldUp_ok {root : Nat} (hidoms : idoms.SameTo root idoms') (hup : PassLists.Ascends idoms' root)
    (h : sizes.SameTo root sizes') (hlast : n + count ≤ root) :
    ∃ last, foldUp idoms sizes (List.range' n count) = .ok last ∧
      last.SameTo root ((List.range' n count).foldl (Retained.fold idoms') sizes') := by
  induction count generalizing n sizes sizes' with
  | zero => exact ⟨sizes, rfl, h⟩
  | succ count ih =>
    have hidom : idoms'.get n ≤ root := by
      by_cases h0 : idoms'.get n = 0
      · rw [h0]
        exact Nat.zero_le root
      · exact (hup n (by omega) h0).2
    have hword : addUnits (sizes'.get (idoms'.get n)) (sizes'.get n) ≤ wordMax := Nat.min_le_right _ _
    have hput := h.put (idoms'.get n) (addUnits (sizes'.get (idoms'.get n)) (sizes'.get n))
    obtain ⟨last, hlast, hsame⟩ := ih hput (show n + 1 + count ≤ root by omega)
    refine ⟨last, ?_, hsame⟩
    rw [List.range'_succ, foldUp, hidoms.read_ok (by omega), ok_bind, h.read_ok hidom, ok_bind,
      h.read_ok (by omega), ok_bind, h.store_ok hidom hword, ok_bind, hlast]

/-- The retained sizes, in a list that was used before: every node has the size of its own object first and
that of all below it at last. -/
theorem retained_ok (hp : p.Numbers g) (hs : p.Sized g)
    (hsizes : g.run.sizes.capacity = g.run.objectCount + 2)
    (hunits : ∀ n, 0 < n → n < p.superRoot → g.run.sizeUnits (p.objects.get n) ≤ wordMax)
    (hidoms : idoms.SameTo p.superRoot idoms') (hup : PassLists.Ascends idoms' p.superRoot)
    (hroom : p.superRoot < sizes.capacity) :
    ∃ owned last, own g.run p.objects (sizes.zero (p.superRoot + 1)) (List.range' 1 (p.superRoot - 1)) =
        .ok owned ∧
      foldUp idoms owned (List.range' 1 (p.superRoot - 1)) = .ok last ∧
      last.SameTo p.superRoot (Retained.compute g p idoms') := by
  have hlast : 1 + (p.superRoot - 1) ≤ p.superRoot := Nat.le_of_eq (Nat.add_sub_cancel' hp.superRoot_pos)
  obtain ⟨owned, hown, hsized⟩ := own_ok hs hsizes hunits (.zero hroom) Nat.one_pos hlast
  obtain ⟨last, hfold, hretained⟩ := foldUp_ok hidoms hup hsized hlast
  exact ⟨owned, last, hown, hfold, hretained⟩

/-- The nodes that a flame graph keeps, node by node. -/
def kept (root minBytes : Nat) (idoms retained : Slots) (nodes : List Nat) : Array (List Nat) :=
  (nodes.filter fun node => minBytes ≤ retained.get node * 4).foldr
    (fun node below => below.modify (idoms.get node) (node :: ·)) (Array.replicate (root + 1) [])

theorem kept_cons (root minBytes : Nat) (idoms retained : Slots) (node : Nat) (nodes : List Nat) :
    kept root minBytes idoms retained (node :: nodes) =
      if minBytes ≤ retained.get node * 4 then
        (kept root minBytes idoms retained nodes).modify (idoms.get node) (node :: ·)
      else kept root minBytes idoms retained nodes := by
  unfold kept
  rw [List.filter_cons]
  by_cases hlarge : minBytes ≤ retained.get node * 4
  · rw [if_pos (decide_eq_true hlarge), if_pos hlarge, List.foldr_cons]
  · rw [if_neg (by rwa [decide_eq_true_iff]), if_neg hlarge]

/-- The nodes below a node are some of those that were kept, each once. -/
theorem sublist_kept (root minBytes : Nat) (idoms retained : Slots) (nodes : List Nat) (node : Nat) :
    ((kept root minBytes idoms retained nodes).getD node []).Sublist nodes := by
  induction nodes with
  | nil =>
    unfold kept
    rw [List.filter_nil, List.foldr_nil, Array.getD_eq_getD_getElem?, Array.getElem?_replicate]
    split <;> exact List.Sublist.refl []
  | cons n nodes ih =>
    rw [kept_cons]
    split
    · rw [CardTable.getD_modify]
      split
      · exact ih.cons_cons n
      · exact ih.cons n
    · exact ih.cons n

section
variable {root minBytes d : Nat} {nodes : List Nat}

end

/-- Siblings come in the same order whichever list their sizes are read from. -/
theorem mergeSort_siblings {root : Nat} (hretained : retained.SameTo root retained') {f : FlameGraph}
    (hf : f.retained = retained')
    (hbelow : (f.nodesBelow node).Sublist (List.range' 1 (root - 1))) :
    (f.nodesBelow node).mergeSort (largerFirst retained.get) =
      (f.nodesBelow node).mergeSort (largerFirst f.retained.get) := by
  have hread : ∀ n ∈ f.nodesBelow node, retained.get n = f.retained.get n := by
    intro n hn
    have hin := List.mem_range'_1.mp (hbelow.subset hn)
    rw [hf]
    exact hretained.get n (by omega)
  have hmap := @List.map_mergeSort _ _ (largerFirst retained.get) (largerFirst f.retained.get) id
    (f.nodesBelow node) fun a ha b hb => by
      unfold largerFirst
      rw [hread a ha, hread b hb]
      rfl
  rwa [List.map_id, List.map_id] at hmap

section
variable {root minBytes : Nat} {nodes : List Nat} (hretained : retained.SameTo root retained')
  (hunits : ∀ n, retained'.get n ≤ wordMax)
include hretained hunits

theorem keep_ok (hidoms : idoms.SameTo root idoms') (hnodes : ∀ n ∈ nodes, n ≤ root) :
    keep root minBytes idoms retained nodes = .ok (kept root minBytes idoms' retained' nodes) := by
  have hbytes : wordMax * 4 ≤ longMax := by decide
  induction nodes with
  | nil => rfl
  | cons node nodes ih =>
    have hnode := hnodes node List.mem_cons_self
    have hword := hunits node
    rw [keep, ih fun n hn => hnodes n (List.mem_cons_of_mem node hn), ok_bind, hretained.read_ok hnode,
      ok_bind, fit_ok (by omega), ok_bind, kept_cons]
    split
    · rw [hidoms.read_ok hnode]
      rfl
    · rfl

theorem addAll_ok {sum : Nat} (hnodes : ∀ n ∈ nodes, n ≤ root)
    (hfits : sum + nodes.length * wordMax ≤ longMax) :
    addAll retained nodes sum = .ok (sum + total (nodes.map retained'.get)) := by
  induction nodes generalizing sum with
  | nil => rfl
  | cons node nodes ih =>
    have hword := hunits node
    rw [List.length_cons, Nat.succ_mul] at hfits
    rw [addAll, hretained.read_ok (hnodes node List.mem_cons_self), ok_bind, fit_ok (by omega), ok_bind,
      ih (fun n hn => hnodes n (List.mem_cons_of_mem node hn)) (by omega), List.map_cons, total_cons,
      Nat.add_assoc]

variable {f : FlameGraph} (hf : f.retained = retained')
  (hbelow : ∀ n, (f.nodesBelow n).Sublist (List.range' 1 (root - 1))) (hword : root ≤ wordMax)
include hf hbelow hword

/-- A node has less than `2^32` nodes below it, so the sum of their sizes fits. -/
theorem ownBytes_ok (levels : Nat) (hn : n ≤ root) :
    ownBytes retained f.below levels n = .ok (f.ownUnits levels n * 4) := by
  have hunit := hunits n
  have hbytes : wordMax * 4 ≤ longMax := by decide
  unfold ownBytes FlameGraph.ownUnits
  rw [hretained.read_ok hn, ok_bind, hf]
  by_cases hlevels : levels = 0
  · rw [if_pos hlevels, if_pos hlevels, fit_ok (by omega)]
  · have hmany := (hbelow n).length_le
    rw [List.length_range'] at hmany
    have hsquare : wordMax * wordMax ≤ longMax := by decide
    have hsum : (f.nodesBelow n).length * wordMax ≤ wordMax * wordMax := Nat.mul_le_mul_right _ (by omega)
    have hshown : addAll retained (f.below.getD n []) 0 =
        .ok (0 + total ((f.nodesBelow n).map retained'.get)) := by
      apply addAll_ok hretained hunits
      · intro m hm
        have hin := List.mem_range'_1.mp ((hbelow n).subset hm)
        omega
      · change 0 + (f.nodesBelow n).length * wordMax ≤ longMax
        omega
    rw [if_neg hlevels, if_neg hlevels, hshown, ok_bind, Nat.zero_add, fit_ok (by omega)]

theorem linesBelow_ok {graph : HeapGraph} {objects : Slots}
    (hobjects : ∀ n, 0 < n → n < root →
      n < objects.capacity ∧ f.label n = FlameGraph.frameName graph (objects.get n))
    (levels : Nat) (frames : List String) (node : Nat) (tail : List FlameLine) :
    linesBelow graph objects retained f.below levels frames node tail =
      .ok (f.linesBelow levels frames node tail) := by
  -- the levels, and at each level the siblings
  induction levels generalizing frames node tail with
  | zero => rfl
  | succ levels ih =>
    have hsorted := mergeSort_siblings hretained hf (hbelow node)
    have hin : ∀ n ∈ (f.nodesBelow node).mergeSort (largerFirst f.retained.get), 0 < n ∧ n < root := by
      intro n hn
      have hbounds := List.mem_range'_1.mp ((hbelow node).subset (List.mem_mergeSort.mp hn))
      omega
    rw [linesBelow, FlameGraph.linesBelow]
    change List.foldrM _ _ ((f.nodesBelow node).mergeSort (largerFirst retained.get)) = _
    rw [hsorted]
    generalize (f.nodesBelow node).mergeSort (largerFirst f.retained.get) = children at hin
    induction children with
    | nil => rfl
    | cons child children ihc =>
      obtain ⟨h0, hlt⟩ := hin child List.mem_cons_self
      obtain ⟨hread, hlabel⟩ := hobjects child h0 hlt
      rw [List.foldrM_cons, ihc fun n hn => hin n (List.mem_cons_of_mem child hn), ok_bind,
        Slots.read_ok hread, ok_bind, ownBytes_ok hretained hunits hf hbelow hword levels (Nat.le_of_lt hlt),
        ok_bind, ← hlabel, ih, List.foldr_cons]
      rfl

end

/-- The lines of the whole tree. -/
theorem lines_ok (hs : p.Sized g) (hretained : retained.SameTo p.superRoot retained')
    (hunits : ∀ n, retained'.get n ≤ wordMax) (hword : p.superRoot ≤ wordMax) (minBytes levels : Nat) :
    linesBelow g.snapshot.graph p.objects retained
        (kept p.superRoot minBytes idoms' retained' (List.range' 1 (p.superRoot - 1))) levels [] p.superRoot
        [] =
      .ok ((FlameGraph.ofTree g.snapshot.graph p idoms' retained' minBytes).lines levels p.superRoot) := by
  have hbelow : ∀ n, ((FlameGraph.ofTree g.snapshot.graph p idoms' retained' minBytes).nodesBelow n).Sublist
      (List.range' 1 (p.superRoot - 1)) := fun n => sublist_kept _ _ _ _ _ n
  refine linesBelow_ok hretained hunits rfl hbelow hword ?_ _ _ _ _
  intro n h0 hlt
  have hbound := hs.superRoot
  refine ⟨?_, rfl⟩
  rw [hs.objects]
  omega

/-- The lists show a tree; `o` tells how much of its flame graph is printed. -/
structure Shows (l : TreeLists) (o : DominatorOptions) (t : DominatorTree) : Prop where
  superRoot : l.search.next = t.superRoot
  objects : l.search.objects = t.objects
  numbers : l.search.numbers = t.numbers
  idoms : l.idoms.SameTo t.superRoot t.idoms
  retained : l.retained.SameTo t.superRoot t.retained
  flameGraph : t.flameGraph = Text.headText o.headLimit FlameLine.text l.lines
  edges : l.search.edgeCount = t.stats.numberedEdges ∧ l.search.maxDepth = t.stats.maxDepth
  passes : l.iterations = t.stats.iterations ∧ l.counts.updates = t.stats.updates ∧
    l.counts.intersections = t.stats.intersections ∧ l.counts.saved = t.stats.saved ∧
    l.counts.skipped = t.stats.skipped

/-- With room for all edges the stage never leaves its lists, and no number outgrows its word. -/
theorem compute_ok {room : Nat} (hg : g.Fits room)
    (hlimit : g.run.config.dominator.maxDominatorIterations < powerOfTwo 31) {x : EdgeIndex}
    (hnumber : Postorder.ofGraph g room = .ok p) (hs : p.Sized g) (hedges : p.edgeCount ≤ room)
    (hindex : EdgeIndex.ofGraph g p (.covering p.superRoot) = .ok x) (traversal : Traversal) :
    ∃ l, compute g room = .ok l ∧ l.Shows g.run.config.dominator
      (DominatorStage.tree g traversal p (DominatorStage.solve g p x).1 (DominatorStage.solve g p x).2) := by
  have hp := Postorder.numbers_ofGraph hg.visited hnumber
  have hpos := hp.superRoot_pos
  have hbound := hs.superRoot
  have hcount := hg.objects
  have hlong := Nat.le_trans hg.room (show wordMax ≤ longMax by decide)
  obtain ⟨search, hsearch, hfound⟩ :=
    SearchLists.search_ok hg.visited hg.sorted (Nat.le_of_lt hcount) hg.edges hlong hnumber
  obtain ⟨index, cursors, hindexed, hheld, hcursors⟩ :=
    IndexLists.ofSearch_ok hp hs hg.reads hg.sorted hedges (Nat.le_trans hedges hg.room) hfound
  obtain ⟨f, hsolve, hidoms, hup, htotals⟩ :=
    PassLists.passes_ok hp hg.sorted hs hcount (Nat.le_trans hedges hg.room) hindex hheld hcursors hlimit
  generalize hmodel : Fixpoint.solve x p.superRoot g.run.config.dominator.maxDominatorIterations
    (.start p.superRoot) = solved at hsolve hidoms hup htotals
  have hfits : ∀ n, 0 < n → n < p.superRoot → g.run.sizeUnits (p.objects.get n) ≤ wordMax := by
    intro n h0 hlt
    apply hg.units
    apply hp.visited
    rw [hp.number_object n h0 hlt]
    omega
  -- the retained sizes take the list of the offsets of the cards
  have hcapacity := hheld.capacity
  obtain ⟨sizes, retained, hown, hfold, hretained⟩ :=
    @retained_ok g p _ _ index.cards.offsets hp hs hg.sizes hfits hidoms hup (by omega)
  have hretains := @retained_le solved.1.idoms g p hfits
  -- the flame graph is read from the nodes that were kept
  have hnodes : ∀ n ∈ List.range' 1 (p.superRoot - 1), n ≤ p.superRoot := by
    intro n hn
    have hbounds := List.mem_range'_1.mp hn
    omega
  have hkeep := @keep_ok _ _ _ _ _ g.run.config.dominator.minNodeSize _ hretained hretains hidoms hnodes
  have hlines := @lines_ok g p solved.1.idoms _ _ hs hretained hretains (by omega)
    g.run.config.dominator.minNodeSize g.run.config.dominator.maxDepth
  have hclear : cursors.clear (p.superRoot + 1) = .ok _ := Slots.clear_ok (by omega)
  have hstart : (cursors.zero (p.superRoot + 1)).store p.superRoot p.superRoot = .ok _ :=
    Slots.store_ok (show p.superRoot < cursors.capacity by omega) (by omega)
  have hreuse : index.cards.offsets.clear (p.superRoot + 1) = .ok _ := Slots.clear_ok (by omega)
  refine ⟨⟨search, f.idoms, retained, f.counts, solved.2.length,
    (FlameGraph.ofTree g.snapshot.graph p solved.1.idoms (Retained.compute g p solved.1.idoms)
      g.run.config.dominator.minNodeSize).lines g.run.config.dominator.maxDepth p.superRoot⟩, ?_, ?_⟩
  · unfold compute
    simp only [hsearch, hfound.counts.1, hfound.objects, hindexed, hclear, hstart, hsolve, hreuse, hown,
      hfold, hkeep, hlines, liftM_ok, ok_bind]
    rfl
  · have hsolved : DominatorStage.solve g p x = (solved.1.idoms, solved.2) := by
      unfold DominatorStage.solve
      rw [hmodel]
    rw [hsolved]
    exact ⟨hfound.counts.1, hfound.objects, hfound.numbers, hidoms, hretained, rfl, hfound.counts.2,
      rfl, htotals.updates.trans (Nat.zero_add _), htotals.intersections.trans (Nat.zero_add _),
      htotals.saved.trans (Nat.zero_add _), htotals.skipped.trans (Nat.zero_add _)⟩

end TreeLists
end HeapRetention
