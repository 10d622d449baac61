import HeapRetention.Proofs.Cancellation
import HeapRetention.Proofs.DominatorsMet
import HeapRetention.Proofs.SubtreeSums
import HeapRetention.Proofs.TreeLists

/-! The scratch lists of the dominator stage always suffice. -/
namespace HeapRetention

namespace ScratchSpace
variable {space : ScratchSpace}

/-- A list of less than 64 terabytes can be made anywhere unless somebody refuses it. -/
theorem check_ok {r : ListRequest} (hrefuses : space.refuses r.name = none)
    (hbytes : r.bytes < powerOfTwo 46) : space.check r = .ok () := by
  have hfile : powerOfTwo 46 ≤ longMax / 2 := by decide
  unfold ListRequest.bytes at hbytes
  unfold check
  rw [hrefuses]
  dsimp only
  split
  · have haddress : ¬longMax < r.capacity * r.width.bytes := by omega
    have hlength : ¬longMax / 2 < r.capacity * r.width.bytes := by omega
    have hsize : ¬powerOfTwo 46 ≤ r.capacity * r.width.bytes := Nat.not_le.mpr hbytes
    unfold MappedSlots.checkSize MappedSlots.checkAddress MappedSlots.checkLength
    rw [if_neg haddress, if_neg hlength, if_neg hsize]
    rfl
  · have hmemory : ¬longMax / 2 < r.capacity * r.width.bytes := by omega
    unfold Slots.checkSize
    rw [if_neg hmemory]
    rfl

theorem reserve_ok {requests : List ListRequest} (hrefuses : ∀ name, space.refuses name = none)
    (hbytes : ∀ r ∈ requests, r.bytes < powerOfTwo 46) : space.reserve requests = .ok () := by
  induction requests with
  | nil => rfl
  | cons r requests ih =>
    rw [reserve, check_ok (hrefuses r.name) (hbytes r List.mem_cons_self)]
    exact ih fun r hr => hbytes r (List.mem_cons_of_mem _ hr)

end ScratchSpace

theorem EdgeIndex.ofGraph_ok {g : FlowGraph} {p : Postorder} {cards : CardTable}
    (hreads : ∀ id, g.snapshot.breaksAt id = none) : ∃ x, EdgeIndex.ofGraph g p cards = .ok x := by
  have hnodes : ∀ nodes x, ∃ y, addNodes g p cards x nodes = .ok y := by
    intro nodes
    induction nodes with
    | nil => exact fun x => ⟨x, rfl⟩
    | cons node nodes ih =>
      intro x
      rw [addNodes]
      unfold FlowGraph.successors
      rw [hreads]
      exact ih _
  obtain ⟨y, hy⟩ := hnodes p.nodes (.empty p.superRoot)
  unfold ofGraph
  rw [hy]
  exact ⟨_, rfl⟩

namespace DominatorStage
variable {g : FlowGraph} {traversal : Traversal} {space : ScratchSpace} {slices : List Slice} {j : Journal}

/-- With nobody to stop it the stage returns a tree once its numbers and its index are there. -/
theorem compute_of_patient {p : Postorder} {x : EdgeIndex} (hj : j.patience? = none)
    (hp : number g (room g traversal) space = .ok p) (hx : index g (room g traversal) space p = .ok x) :
    (compute g traversal space slices j).2 = .ok (tree g traversal p (solve g p x).1 (solve g p x).2) := by
  obtain ⟨j₁, hj₁, hfirst⟩ := @beyond_of_patient slices _ _ (connect g traversal space slices p)
    (((Journal.silent_log _ _).comp (Journal.silent_stage _)).patience? j |>.trans hj) 0.2
  obtain ⟨j₂, hj₂, hsecond⟩ := @beyond_of_patient slices _ _ (dominate g traversal slices p x)
    (((Journal.silent_stage "Computing incoming edges").patience? j₁).trans hj₁) 0.4
  obtain ⟨j₃, -, hthird⟩ := @beyond_of_patient slices _ _
    (present slices (tree g traversal p (solve g p x).1 (solve g p x).2))
    (((silent_logPasses (solve g p x).2).patience? (j₂.stage "Computing dominators")).trans hj₂) 0.8
  rw [compute_eq, hp]
  dsimp only
  unfold announce
  rw [hfirst]
  unfold connect
  rw [hx]
  dsimp only
  rw [hsecond]
  unfold dominate
  dsimp only
  rw [hthird]
  rfl

end DominatorStage

namespace DominatorStage
variable {g : FlowGraph} {room : Nat} {space : ScratchSpace} {p : Postorder}

/-- With room for its edges a graph is numbered. -/
theorem number_of_fits (hg : g.Fits room) (hlists : ∀ name, space.refuses name = none) :
    ∃ p, number g room space = .ok p ∧ Postorder.ofGraph g room = .ok p ∧ p.Sized g ∧
      p.edgeCount ≤ g.roots.length + g.edgeTotal := by
  obtain ⟨p, hp⟩ := Postorder.ofGraph_ok hg.visited hg.reads hg.objects hg.edges hg.room
  obtain ⟨hs, hedges⟩ := Postorder.sized_ofGraph hg.visited hp
  have hobjects := hg.objects
  have hword := hg.room
  have hlong : wordMax ≤ longMax := by decide
  have hbytes : (wordMax + 3) * 4 < powerOfTwo 46 := by decide
  have hreserve : space.reserve (numberingLists g.run.objectCount room) = .ok () := by
    apply ScratchSpace.reserve_ok hlists
    intro r hr
    simp only [numberingLists, List.mem_cons, List.not_mem_nil, or_false] at hr
    unfold ListRequest.bytes
    rcases hr with rfl | rfl | rfl | rfl | rfl | rfl <;> simp only [WordWidth.bytes] <;> omega
  refine ⟨p, ?_, hp, hs, hedges⟩
  unfold number
  rw [if_neg (by omega), hreserve]
  exact hp

/-- The edges of the index go where the frames were: only the cards need another list. -/
theorem indexLists_of_le {edges : Nat} (h : edges ≤ room) : indexLists edges room =
    [{ name := "cardRefs", capacity := max 1 edges, width := .short }] := by
  unfold indexLists
  rw [if_pos h]

/-- Once a graph is numbered its index is made. -/
theorem index_of_fits (hg : g.Fits room) (hlists : ∀ name, space.refuses name = none)
    (h : p.edgeCount ≤ room) :
    ∃ x, index g room space p = .ok x ∧ EdgeIndex.ofGraph g p (.covering p.superRoot) = .ok x := by
  obtain ⟨x, hx⟩ := @EdgeIndex.ofGraph_ok g p (.covering p.superRoot) hg.reads
  have hword := hg.room
  have hbytes : (wordMax + 1) * 2 < powerOfTwo 46 := by decide
  have hreserve : space.reserve (indexLists p.edgeCount room) = .ok () := by
    apply ScratchSpace.reserve_ok hlists
    intro r hr
    rw [indexLists_of_le h] at hr
    rw [List.mem_singleton.mp hr]
    simp only [ListRequest.bytes, WordWidth.bytes]
    omega
  refine ⟨x, ?_, hx⟩
  unfold index
  rw [hreserve, hx]
  rfl

end DominatorStage

/-- What a traversal leaves fits the lists that are sized from its counts. -/
theorem fits_of_traversed {graph : HeapGraph} {fresh run : Run} {traversal : Traversal} (hf : fresh.IsFresh)
    (ht : Traversed graph fresh run traversal) (hcount : fresh.objectCount < wordMax)
    (hedges : traversal.summary.edgeCount + (FlowGraph.of run { graph } traversal).roots.length ≤ wordMax) :
    (FlowGraph.of run { graph } traversal).Fits
      (DominatorStage.room (.of run { graph } traversal) traversal) := by
  have hsorted := @roots_ascend { graph } _ _ _ hf ht
  obtain ⟨w, segment, held, hw, -, rfl, -⟩ := exists_walk hf ht
  have hsame := hw.visits.heap.objectCount
  have htotal : (FlowGraph.of w.run { graph } traversal).edgeTotal ≤ traversal.summary.edgeCount :=
    @edgeTotal_le { graph } _ _ _ hf ht
  exact {
    visited := fun id hid => (List.mem_filter.mp hid).2
    sorted := hsorted
    reads := fun _ => rfl
    objects := by
      change w.run.objectCount < wordMax
      omega
    sizes := by
      change w.run.sizes.capacity = w.run.objectCount + 2
      rw [hw.visits.capacity_sizes, hsame]
    units := by
      intro id hid
      change w.run.sizeUnits id ≤ wordMax
      rw [hw.sizeUnits_eq hid]
      exact sizeInUnits_le (graph.sizeOf_le id)
    edges := by
      unfold DominatorStage.room
      omega
    room := by
      unfold DominatorStage.room
      exact Nat.max_le.mpr ⟨by decide, hedges⟩ }

/-- Once a traversal is done its counts are enough for the dominator stage: nobody being there to stop it, the
stage returns a tree and asks for no more than the cards beyond the lists of the search. Over those lists,
word by word, it comes to the same tree; no access leaves a list and no number outgrows its word. -/
theorem compute_suffices {graph : HeapGraph} {fresh run : Run} {traversal : Traversal} {space : ScratchSpace}
    {slices : List Slice} {j : Journal} (hf : fresh.IsFresh) (ht : Traversed graph fresh run traversal)
    (hcount : fresh.objectCount < wordMax)
    (hedges : traversal.summary.edgeCount + (FlowGraph.of run { graph } traversal).roots.length ≤ wordMax)
    (hlimit : fresh.config.dominator.maxDominatorIterations < powerOfTwo 31)
    (hlists : ∀ name, space.refuses name = none) (hj : j.patience? = none) : ∃ tree,
    (DominatorStage.compute (.of run { graph } traversal) traversal space slices j).2 = .ok tree ∧
      tree.stats.numberedEdges ≤ traversal.summary.edgeCount + tree.stats.rootCount ∧
      DominatorStage.indexLists tree.stats.numberedEdges
          (DominatorStage.room (.of run { graph } traversal) traversal) =
        [{ name := "cardRefs", capacity := max 1 tree.stats.numberedEdges, width := .short }] ∧
      ∃ lists, TreeLists.compute (.of run { graph } traversal)
          (DominatorStage.room (.of run { graph } traversal) traversal) = .ok lists ∧
        lists.Shows run.config.dominator tree := by
  have hg := fits_of_traversed hf ht hcount hedges
  have htotal := @edgeTotal_le { graph } _ _ _ hf ht
  have hconfig : run.config.dominator = fresh.config.dominator := by
    obtain ⟨w, segment, held, hw, -, rfl, -⟩ := exists_walk hf ht
    rw [hw.visits.heap.config]
  obtain ⟨p, hnumber, hp, hs, hmet⟩ := DominatorStage.number_of_fits hg hlists
  have hfits := Nat.le_trans hmet hg.edges
  obtain ⟨x, hindex, hx⟩ := DominatorStage.index_of_fits hg hlists hfits
  refine ⟨_, DominatorStage.compute_of_patient hj hnumber hindex, ?_,
    DominatorStage.indexLists_of_le hfits, ?_⟩
  · change p.edgeCount ≤ traversal.summary.edgeCount + (FlowGraph.of run { graph } traversal).roots.length
    omega
  · exact TreeLists.compute_ok hg (hconfig ▸ hlimit) hp hs hfits hx traversal

set_option maxRecDepth 10000 in
theorem compute_suffices_crossedHeap : crossedRun.IsFresh ∧ ∃ traversal,
    Traversed crossedHeap crossedRun crossedVisits traversal ∧ crossedRun.objectCount < wordMax ∧
    traversal.summary.edgeCount +
      (FlowGraph.of crossedVisits { graph := crossedHeap } traversal).roots.length ≤ wordMax ∧
    crossedRun.config.dominator.maxDominatorIterations < powerOfTwo 31 ∧
    (∀ name, (ScratchSpace.mk (.ok 1000) true fun _ => none).refuses name = none) ∧
    ({} : Journal).patience? = none ∧ ∃ tree,
    (DominatorStage.compute (.of crossedVisits { graph := crossedHeap } traversal) traversal
      { available := .ok 1000, inFiles := true } [] {}).2 = .ok tree ∧
      tree.stats.numberedEdges ≤ traversal.summary.edgeCount + tree.stats.rootCount ∧
      ∃ lists, TreeLists.compute (.of crossedVisits { graph := crossedHeap } traversal)
          (DominatorStage.room (.of crossedVisits { graph := crossedHeap } traversal) traversal) = .ok lists ∧
        lists.Shows crossedVisits.config.dominator tree := by
  have hdone : (crossedRun.traverse crossedHeap [] {}).result.toOption.any (fun traversal =>
      traversal.summary.edgeCount +
        (FlowGraph.of crossedVisits { graph := crossedHeap } traversal).roots.length ≤ wordMax) = true := by
    decide +kernel
  obtain ⟨traversal, hresult, hsmall⟩ := exists_ok_of_any hdone
  have ht : Traversed crossedHeap crossedRun crossedVisits traversal := traversed_of_result hresult
  have hedges := of_decide_eq_true hsmall
  have hcount : crossedRun.objectCount < wordMax := by decide
  have hlimit : crossedRun.config.dominator.maxDominatorIterations < powerOfTwo 31 := by decide
  obtain ⟨tree, htree, hle, -, hshown⟩ :=
    @compute_suffices _ _ _ _ { available := .ok 1000, inFiles := true } [] {}
      crossedRun_isFresh ht hcount hedges hlimit (fun _ => rfl) rfl
  exact ⟨crossedRun_isFresh, traversal, ht, hcount, hedges, hlimit, fun _ => rfl, rfl, tree, htree, hle,
    hshown⟩

end HeapRetention
