import HeapRetention.Proofs.ListsSuffice
import HeapRetention.Proofs.StageRequests

/-! What the dominator stage takes of the scratch space, against the estimate that lets it run. The estimate
counts visited objects and followed edges; the lists have words for all objects, visited or not, and for the
roots. So the stage keeps off the reserved space exactly if its lists come to no more than the estimate and
one byte. -/
namespace HeapRetention

/-- The bytes that several lists take together. -/
def ListRequest.totalBytes (requests : List ListRequest) : Nat :=
  (requests.map bytes).sum

theorem ListRequest.totalBytes_append (requests more : List ListRequest) :
    totalBytes (requests ++ more) = totalBytes requests + totalBytes more := by
  unfold totalBytes
  rw [List.map_append, List.sum_append]

theorem ListRequest.totalBytes_le_of_sublist {requests more : List ListRequest} (h : requests.Sublist more) :
    totalBytes requests ≤ totalBytes more :=
  (h.map bytes).sum_le_sum fun _ _ => Nat.zero_le _

namespace DominatorStage
variable {g : FlowGraph} {traversal : Traversal} {space other : ScratchSpace} {slices : List Slice}
  {j : Journal} {p : Postorder} {x : EdgeIndex} {tree : DominatorTree} {limit edges : Nat}

theorem totalBytes_numberingLists (objectCount limit : Nat) :
    ListRequest.totalBytes (numberingLists objectCount limit) = 20 * (objectCount + 3) + 4 * limit := by
  simp only [ListRequest.totalBytes, numberingLists, ListRequest.bytes, WordWidth.bytes, List.map_cons,
    List.map_nil, List.sum_cons, List.sum_nil]
  omega

/-- The edges of the index take no more space if they fit where the frames were. -/
theorem totalBytes_indexLists (h : edges ≤ limit) :
    ListRequest.totalBytes (indexLists edges limit) = 2 * max 1 edges := by
  rw [indexLists_of_le h]
  simp only [ListRequest.totalBytes, ListRequest.bytes, WordWidth.bytes, List.map_cons, List.map_nil,
    List.sum_cons, List.sum_nil]
  omega

/-- Wherever the stage ends, its lists take no more than those of a stage that numbers all edges. -/
theorem totalBytes_requests_le (hroots : ∀ id ∈ g.roots, g.run.wasVisited id = true)
    (hedges : g.roots.length + g.edgeTotal ≤ edges) (hroom : edges ≤ room g traversal) :
    ListRequest.totalBytes (requests g traversal space slices j) ≤
      20 * (g.run.objectCount + 3) + 4 * room g traversal + 2 * max 1 edges := by
  unfold requests
  dsimp only
  split
  · exact Nat.zero_le _
  have hnumbering := ListRequest.totalBytes_le_of_sublist
    (space.asked_sublist (numberingLists g.run.objectCount (room g traversal)))
  rw [totalBytes_numberingLists] at hnumbering
  rw [ListRequest.totalBytes_append]
  apply Nat.add_le_add hnumbering
  cases hn : number g (room g traversal) space with
  | error f => exact Nat.zero_le _
  | ok p =>
    dsimp only
    split
    · exact Nat.zero_le _
    · have hmet := (Postorder.sized_ofGraph hroots (number_ok hn)).2.trans hedges
      have hindexing := ListRequest.totalBytes_le_of_sublist
        (space.asked_sublist (indexLists p.edgeCount (room g traversal)))
      rw [totalBytes_indexLists (hmet.trans hroom)] at hindexing
      omega

end DominatorStage

namespace Analysis

/-- However much is left when the stage is let run, its lists leave the reserved space alone. -/
def KeepsReserve (input : AnalysisInput) (run : Run) (t : Traversal) (slices : List Slice)
    (journal : Journal) : Prop :=
  ∀ available,
    Admits { input with space := { input.space with available := .ok available } } run t available →
      ListRequest.totalBytes
          (DominatorStage.requests (.of run input.snapshot t) t input.space slices journal) ≤
        available - run.config.dominator.diskSpaceThreshold

variable {input : AnalysisInput} {run : Run} {t : Traversal} {available estimate threshold : Nat}
  {slices : List Slice} {journal : Journal}

theorem hasSpace_iff :
    hasSpace available estimate threshold = true ↔ estimate + threshold < available := by
  unfold hasSpace
  rw [Bool.and_eq_true, decide_eq_true_iff, decide_eq_true_iff]
  omega

theorem keepsReserve_iff (hwanted : run.config.dominator.includeDominatorTree = true) :
    KeepsReserve input run t slices journal ↔
      ListRequest.totalBytes
          (DominatorStage.requests (.of run input.snapshot t) t input.space slices journal) ≤
        DominatorStage.estimate t.visitedCount t.summary.edgeCount + 1 := by
  unfold KeepsReserve
  constructor
  -- the least that is let run leaves one byte beyond the estimate
  · intro hkept
    have hleast : hasSpace (DominatorStage.estimate t.visitedCount t.summary.edgeCount +
        run.config.dominator.diskSpaceThreshold + 1)
        (DominatorStage.estimate t.visitedCount t.summary.edgeCount)
        run.config.dominator.diskSpaceThreshold = true :=
      hasSpace_iff.mpr (Nat.lt_succ_self _)
    have hle := hkept _ ⟨hwanted, rfl, hleast⟩
    omega
  · intro hle available hadmits
    have hspare := hasSpace_iff.mp hadmits.spare
    omega

end Analysis

section
variable {input : AnalysisInput} {fresh run : Run} {t : Traversal} (hf : fresh.IsFresh)
  (ht : Traversed input.snapshot.graph fresh run t)
include hf ht

theorem visitedCount_le_of_traversed : t.visitedCount ≤ run.objectCount := by
  obtain ⟨w, segment, held, hw, -, rfl, hresult⟩ := exists_walk hf ht
  rw [(Walk.traversal_eq hresult).1, hw.visits.heap.objectCount]
  exact hw.visitedCount_le

theorem edges_le_of_traversed :
    (FlowGraph.of run input.snapshot t).roots.length + (FlowGraph.of run input.snapshot t).edgeTotal ≤
      t.summary.edgeCount + (FlowGraph.of run input.snapshot t).roots.length := by
  have htotal := edgeTotal_le hf ht
  omega

/-- What the lists of the stage come to, wherever it ends. -/
theorem totalBytes_requests_le_of_traversed (slices : List Slice) (journal : Journal) :
    ListRequest.totalBytes
        (DominatorStage.requests (.of run input.snapshot t) t input.space slices journal) ≤
      20 * (run.objectCount + 3) +
        6 * max 1 (t.summary.edgeCount + (FlowGraph.of run input.snapshot t).roots.length) := by
  have hroots : ∀ id ∈ (FlowGraph.of run input.snapshot t).roots,
      (FlowGraph.of run input.snapshot t).run.wasVisited id = true :=
    fun id hid => (List.mem_filter.mp hid).2
  have hbytes := @DominatorStage.totalBytes_requests_le _ t input.space slices journal _ hroots
    (edges_le_of_traversed hf ht) (Nat.le_max_right _ _)
  have hobjects : (FlowGraph.of run input.snapshot t).run.objectCount = run.objectCount := rfl
  unfold DominatorStage.room at hbytes
  omega

/-- The lists of a stage that comes to its end. -/
theorem requests_of_whole {slices : List Slice} {journal : Journal} {tree : DominatorTree}
    (htree : (DominatorStage.compute (.of run input.snapshot t) t input.space slices journal).2 = .ok tree) :
    let edges := t.summary.edgeCount + (FlowGraph.of run input.snapshot t).roots.length
    let asked := DominatorStage.requests (.of run input.snapshot t) t input.space slices journal
    tree.stats.numberedEdges ≤ edges ∧
      asked = DominatorStage.numberingLists run.objectCount (max 1 edges) ++
        [{ name := "cardRefs", capacity := max 1 tree.stats.numberedEdges, width := .short }] ∧
      ListRequest.totalBytes asked =
        20 * (run.objectCount + 3) + 4 * max 1 edges + 2 * max 1 tree.stats.numberedEdges := by
  intro edges asked
  obtain ⟨p, x, hp, -, rfl⟩ := DominatorStage.compute_ok (Prod.ext rfl htree)
  have hmet : p.edgeCount ≤ edges :=
    (Postorder.sized_ofGraph (fun id hid => (List.mem_filter.mp hid).2) hp).2.trans
      (edges_le_of_traversed hf ht)
  have hroom : p.edgeCount ≤ max 1 edges := hmet.trans (Nat.le_max_right _ _)
  have hasked : asked = DominatorStage.numberingLists run.objectCount (max 1 edges) ++
      DominatorStage.indexLists p.edgeCount (max 1 edges) :=
    DominatorStage.requests_of_compute htree
  refine ⟨hmet, ?_, ?_⟩
  · rw [hasked, DominatorStage.indexLists_of_le hroom]
    rfl
  · rw [hasked, ListRequest.totalBytes_append, DominatorStage.totalBytes_numberingLists,
      DominatorStage.totalBytes_indexLists hroom]
    rfl

/-- The guard of the dominator stage keeps it off the reserved space exactly if its lists take at most one
byte more than the estimate, which need not be: a whole stage has five words for each object of the heap and
three more of each, while the estimate has five for each visited object; and it has a word and a half for
each root, while the estimate has none. The rest of the estimate is more than enough. -/
theorem stage_keeps_reserve_iff (slices : List Slice) (journal : Journal) :
    let g := FlowGraph.of run input.snapshot t
    let asked := DominatorStage.requests g t input.space slices journal
    let reserved := run.config.dominator.diskSpaceThreshold
    (∀ other : ScratchSpace, (∀ r ∈ asked, other.check r = input.space.check r) →
      DominatorStage.requests g t other slices journal = asked ∧
        DominatorStage.compute g t other slices journal =
          DominatorStage.compute g t input.space slices journal) ∧
    (∀ tree, (DominatorStage.compute g t input.space slices journal).2 = .ok tree →
      tree.stats.numberedEdges ≤ t.summary.edgeCount + g.roots.length ∧
        asked = DominatorStage.numberingLists run.objectCount (max 1 (t.summary.edgeCount + g.roots.length)) ++
          [{ name := "cardRefs", capacity := max 1 tree.stats.numberedEdges, width := .short }] ∧
        ListRequest.totalBytes asked = 20 * (run.objectCount + 3) +
          4 * max 1 (t.summary.edgeCount + g.roots.length) + 2 * max 1 tree.stats.numberedEdges) ∧
    (run.config.dominator.includeDominatorTree = true →
      (Analysis.KeepsReserve input run t slices journal ↔
        ListRequest.totalBytes asked ≤ DominatorStage.estimate t.visitedCount t.summary.edgeCount + 1)) ∧
    ∀ available, Analysis.Admits input run t available →
      (Analysis.dominatorOutcome input run t slices journal).2 =
          Analysis.stageView (DominatorStage.compute g t input.space slices journal).2 ∧
        ListRequest.totalBytes asked + 4 * t.summary.edgeCount <
          (available - reserved) + 20 * (run.objectCount - t.visitedCount) + 60 + 6 * max 1 g.roots.length := by
  intro g asked reserved
  have hvisited := visitedCount_le_of_traversed hf ht
  have hbytes := totalBytes_requests_le_of_traversed hf ht slices journal
  refine ⟨fun other hsame => DominatorStage.requests_congr hsame,
    fun tree htree => requests_of_whole hf ht htree,
    fun hwanted => Analysis.keepsReserve_iff hwanted,
    fun available hadmits => ⟨hadmits.dominatorOutcome_eq, ?_⟩⟩
  have hspare := Analysis.hasSpace_iff.mp hadmits.spare
  unfold DominatorStage.estimate at hspare
  change ListRequest.totalBytes asked ≤ 20 * (run.objectCount + 3) +
    6 * max 1 (t.summary.edgeCount + g.roots.length) at hbytes
  omega

end

/-- A heap with many references between few objects. -/
def denseHeap : HeapGraph where
  classes := .ofList [{ name := "Node" }]
  objects := #[
    { classId := 1, size := 4, references := List.replicate 20 2 },
    { classId := 1, size := 4 }]
  roots := [{ id := 1 }]

def denseInput : AnalysisInput where
  snapshot := { graph := denseHeap }
  tree? := none
  config := {}
  space := { available := .ok 1000000000 }

def denseRun : Run where
  config := {}
  objectCount := 2
  parents := .create 4
  sizes := .create 4
  visited := .create 4
  roles := .create 4

def denseVisits : Run :=
  (denseRun.traverse denseHeap [] {}).run

theorem stage_keeps_reserve_iff_denseHeap : denseRun.IsFresh ∧ ∃ t,
    Traversed denseInput.snapshot.graph denseRun denseVisits t ∧ t.visitedCount = 2 ∧
    t.summary.edgeCount = 20 ∧ Analysis.KeepsReserve denseInput denseVisits t [] {} ∧
    Analysis.Admits denseInput denseVisits t 1000000000 ∧ ∃ tree,
    (Analysis.dominatorOutcome denseInput denseVisits t [] {}).2 = .ok (.computed tree) ∧
      tree.stats.numberedEdges = 21 ∧ ListRequest.totalBytes
        (DominatorStage.requests (.of denseVisits denseInput.snapshot t) t denseInput.space [] {}) = 226 := by
  have hfresh : denseRun.IsFresh := ⟨{}, 2, none, { available := .ok 1000 }, rfl⟩
  have hdone : (denseRun.traverse denseHeap [] {}).result.toOption.any (fun t =>
      t.visitedCount = 2 ∧ t.summary.edgeCount = 20 ∧
      (FlowGraph.of denseVisits denseInput.snapshot t).roots.length = 1 ∧
      denseVisits.objectCount = 2 ∧
      denseVisits.config.dominator = denseInput.config.dominator ∧
      (DominatorStage.compute (.of denseVisits denseInput.snapshot t) t
        denseInput.space [] {}).2.toOption.any fun tree => tree.stats.numberedEdges = 21) = true := by
    decide +kernel
  obtain ⟨t, hresult, hfound⟩ := exists_ok_of_any hdone
  obtain ⟨hvisited, hedges, hroots, hobjects, hconfig, hfound⟩ := of_decide_eq_true hfound
  obtain ⟨tree, htree, hnumbered⟩ := exists_ok_of_any hfound
  replace hnumbered := of_decide_eq_true hnumbered
  have ht : Traversed denseInput.snapshot.graph denseRun denseVisits t :=
    traversed_of_result hresult
  obtain ⟨-, hwhole, hkeeps, hlet⟩ := stage_keeps_reserve_iff hfresh ht [] {}
  obtain ⟨-, -, hbytes⟩ := hwhole tree htree
  rw [hobjects, hedges, hroots, hnumbered] at hbytes
  have hadmits : Analysis.Admits denseInput denseVisits t 1000000000 := by
    refine ⟨by rw [hconfig]; rfl, rfl, ?_⟩
    rw [hvisited, hedges, hconfig]
    rfl
  refine ⟨hfresh, t, ht, hvisited, hedges, (hkeeps hadmits.wanted).mpr ?_, hadmits, tree, ?_, hnumbered,
    hbytes⟩
  · rw [hbytes, hvisited, hedges]
    decide
  · rw [(hlet _ hadmits).1]
    exact congrArg Analysis.stageView htree

/-- A heap most of which no root leads to. -/
def lonelyHeap : HeapGraph where
  classes := .ofList [{ name := "Node" }]
  objects := #[
    { classId := 1, size := 4 },
    { classId := 1, size := 4 },
    { classId := 1, size := 4 },
    { classId := 1, size := 4 },
    { classId := 1, size := 4 }]
  roots := [{ id := 1 }]

/-- The estimate is 20 bytes for the one object that is visited, and no space is reserved. -/
def lonelyInput : AnalysisInput where
  snapshot := { graph := lonelyHeap }
  tree? := none
  config := AnalysisConfig.withDiskSpaceThreshold {} 0
  space := { available := .ok 21 }

def lonelyRun : Run where
  config := lonelyInput.config
  objectCount := 5
  parents := .create 7
  sizes := .create 7
  visited := .create 7
  roles := .create 7

/-- The stage is let run on 21 bytes and takes 166 of them. -/
theorem stage_overruns_reserve :
    Run.create lonelyInput.config lonelyInput.snapshot.graph.objectCount lonelyInput.tree? lonelyInput.space =
      .ok lonelyRun ∧ ∃ run journal t a,
    lonelyRun.traverse lonelyInput.snapshot.graph [⟨0.0, 0.5⟩] {} = ⟨run, journal, .ok t⟩ ∧
    Analysis.Admits lonelyInput run t 21 ∧ run.config.dominator.diskSpaceThreshold = 0 ∧
    (Analysis.analyze lonelyInput {}).2 = .ok a ∧ a.dominators.tree?.isSome = true ∧
    ListRequest.totalBytes (DominatorStage.requests (.of run lonelyInput.snapshot t) t lonelyInput.space
      [⟨0.5, 0.4⟩] journal) = 166 ∧
    ¬Analysis.KeepsReserve lonelyInput run t [⟨0.5, 0.4⟩] journal := by
  have hanalyzed : (Analysis.analyze lonelyInput {}).2.toOption.any (fun a =>
      a.dominators.tree?.isSome = true) = true := by
    decide +kernel
  obtain ⟨a, ha, htree⟩ := exists_ok_of_any hanalyzed
  cases hrun : lonelyRun.traverse lonelyInput.snapshot.graph [⟨0.0, 0.5⟩] {} with
  | mk run journal result =>
    have hdone : (lonelyRun.traverse lonelyInput.snapshot.graph [⟨0.0, 0.5⟩] {}).result.toOption.any (fun t =>
        t.visitedCount = 1 ∧ t.summary.edgeCount = 0 ∧
        (lonelyRun.traverse lonelyInput.snapshot.graph [⟨0.0, 0.5⟩] {}).run.config.dominator =
          lonelyInput.config.dominator ∧
        ListRequest.totalBytes (DominatorStage.requests
          (.of (lonelyRun.traverse lonelyInput.snapshot.graph [⟨0.0, 0.5⟩] {}).run lonelyInput.snapshot t) t
          lonelyInput.space [⟨0.5, 0.4⟩]
          (lonelyRun.traverse lonelyInput.snapshot.graph [⟨0.0, 0.5⟩] {}).journal) = 166) = true := by
      decide +kernel
    rw [hrun] at hdone
    obtain ⟨t, hresult, hfound⟩ := exists_ok_of_any hdone
    obtain ⟨hvisited, hedges, hconfig, hbytes⟩ := of_decide_eq_true hfound
    dsimp only at hresult hconfig hbytes
    subst hresult
    have hadmits : Analysis.Admits lonelyInput run t 21 := by
      refine ⟨by rw [hconfig]; rfl, rfl, ?_⟩
      rw [hvisited, hedges, hconfig]
      rfl
    refine ⟨rfl, run, journal, t, a, rfl, hadmits, by rw [hconfig]; rfl, ha, of_decide_eq_true htree, hbytes,
      fun hkept => ?_⟩
    have hle := hkept 21 hadmits
    rw [hbytes, hconfig] at hle
    exact absurd hle (by decide)

end HeapRetention
