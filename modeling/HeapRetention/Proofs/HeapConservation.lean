import HeapRetention.Proofs.StageIsolation
import HeapRetention.Proofs.PhaseLayers
import HeapRetention.Proofs.ShortQuantities
import Mathlib.Algebra.BigOperators.Group.List.Basic
import Mathlib.Algebra.GroupWithZero.Nat

/-! The heap is conserved in the report. Every object is counted in one of three places: among the strongly
reachable objects, among the other visited ones, or among those that nothing has visited. No counter is ever
full, so the three add up to the histogram of all objects, class name by class name. -/
namespace HeapRetention

/-- The number of some objects and their bytes. -/
def HeapGraph.stock (g : HeapGraph) (ids : List ObjectId) : Nat × Nat :=
  (ids.map fun id => (1, g.sizeOf id)).sum

/-- Whether an object shows under a class name. -/
def HeapGraph.showsUnder (g : HeapGraph) (name : String) (id : ObjectId) : Bool :=
  g.classes.displayName (g.classOf id) == name

/-- The totals of a histogram. -/
def Histogram.stock (h : Histogram) : Nat × Nat :=
  (h.instanceCount, h.bytesCount)

/-- What a histogram has under a class name; entries of equal names add up. -/
def Histogram.stockUnder (h : Histogram) (name : String) : Nat × Nat :=
  ((h.entries.filter (·.className == name)).map fun e => (e.instances, e.bytes)).sum

/-- The line about a number of objects that nothing reaches. -/
def Report.unreachableLine (stock : Nat × Nat) : String :=
  "Unreachable objects: " ++ Text.paddedCount stock.1 ++ "  " ++ Text.paddedSize stock.2 ++ "\n"

/-- A line that shows a number of objects and their bytes in short, in columns of six and seven characters. -/
def Report.TellsUnreachable (stock : Nat × Nat) (line : String) : Prop :=
  ∃ count size, line = "Unreachable objects: " ++ String.ofList (count.toList.leftpad 6 ' ') ++ "  " ++
      String.ofList (size.toList.leftpad 7 ' ') ++ "\n" ∧
    Text.ShowsShort 1000 ["", "K", "M", "G", "T"] stock.1 count ∧
    Text.ShowsShort 1024 ["b", "KB", "MB", "GB", "TB"] stock.2 size

/-- The objects that an analysis has never visited. -/
def Analysis.unvisited (a : Analysis) (g : HeapGraph) : List ObjectId :=
  g.objectIds.filter fun id => id ∉ a.run.visitOrder a.traversal.visitedCount

/-- A sum of pairs is the pair of the sums. -/
theorem sum_pairs {α : Type} (f g : α → Nat) (as : List α) :
    (as.map fun a => (f a, g a)).sum = ((as.map f).sum, (as.map g).sum) := by
  induction as with
  | nil => rfl
  | cons a as ih =>
    simp only [List.map_cons, List.sum_cons]
    rw [ih]
    rfl

section
variable {g : HeapGraph} {xs ys : List ObjectId}

theorem HeapGraph.stock_append : g.stock (xs ++ ys) = g.stock xs + g.stock ys := by
  unfold stock
  rw [List.map_append, List.sum_append]

theorem HeapGraph.stock_perm (h : xs.Perm ys) : g.stock xs = g.stock ys :=
  (h.map _).sum_eq

theorem HeapGraph.length_objectIds_le (g : HeapGraph) : g.objectIds.length ≤ wordMax := by
  rw [objectIds, List.length_range']
  exact g.objects_le

/-- The number of objects fits 32 bits, and their bytes 64. -/
theorem HeapGraph.stock_le (h : xs.length ≤ wordMax) :
    (g.stock xs).1 ≤ wordMax ∧ (g.stock xs).2 ≤ longMax := by
  have hbytes : (xs.map g.sizeOf).sum ≤ xs.length * wordMax := by
    rw [← List.length_map g.sizeOf]
    apply List.sum_le_card_nsmul
    intro size hsize
    obtain ⟨id, -, rfl⟩ := List.mem_map.mp hsize
    exact g.sizeOf_le id
  have hsquare : wordMax * wordMax ≤ longMax := by decide
  unfold stock
  rw [sum_pairs]
  constructor
  · simpa using h
  · exact (hbytes.trans (Nat.mul_le_mul_right wordMax h)).trans hsquare

end

namespace Tally
variable {s : Tally} {n size : Nat} {p : ClassId → Bool}

/-- What some counters have of the classes that satisfy `p`. -/
def stockOf (counters : List (ClassId × Counter)) (p : ClassId → Bool) : Nat × Nat :=
  ((counters.filter fun k => p k.1).map fun k => (k.2.instances, k.2.bytes)).sum

theorem stockOf_cons (k : ClassId) (c : Counter) (counters : List (ClassId × Counter)) :
    stockOf ((k, c) :: counters) p = (if p k then (c.instances, c.bytes) else 0) + stockOf counters p := by
  unfold stockOf
  rw [List.filter_cons]
  split
  · rw [List.map_cons, List.sum_cons]
  · rw [zero_add]

/-- A counter with room takes in an object. -/
theorem add_of_room {c : Counter} (hinstances : c.instances < longMax) (hbytes : c.bytes + size ≤ longMax) :
    ((c.add size).instances, (c.add size).bytes) = (c.instances, c.bytes) + (1, size) := by
  unfold Counter.add
  rw [Nat.min_eq_left hinstances, Nat.min_eq_left hbytes]
  rfl

theorem stockOf_bump (id : ClassId) (hsize : size ≤ longMax) (counters : List (ClassId × Counter))
    (hroom : ∀ k ∈ counters, k.2.instances < longMax ∧ k.2.bytes + size ≤ longMax) :
    stockOf (bump id size counters) p = stockOf counters p + if p id then (1, size) else 0 := by
  induction counters with
  | nil =>
    have hfirst := @add_of_room size {} (by decide) (by rwa [Nat.zero_add])
    have hempty : stockOf [] p = 0 := rfl
    rw [bump, stockOf_cons, hfirst, hempty, add_zero, zero_add]
    split
    · exact zero_add (1, size)
    · rfl
  | cons q counters ih =>
    obtain ⟨k, c⟩ := q
    obtain ⟨hinstances, hbytes⟩ := hroom _ List.mem_cons_self
    unfold bump
    split
    · next hk =>
      rw [stockOf_cons, stockOf_cons, add_of_room hinstances hbytes, hk]
      split
      · exact add_right_comm _ _ _
      · rw [add_zero]
    · rw [stockOf_cons, stockOf_cons, ih fun k hk => hroom k (List.mem_cons_of_mem _ hk), add_assoc]

theorem le_total {α : Type} (f : α → Nat) {a : α} {as : List α} (h : a ∈ as) : f a ≤ total (as.map f) := by
  rw [total_eq_sum]
  exact List.le_sum_of_mem (List.mem_map_of_mem h)

/-- A tally of less objects than a heap can have takes in another one. -/
theorem Within.stockOf_add (h : s.Within n) (hn : n < wordMax) (hsize : size ≤ wordMax) (id : ClassId) :
    stockOf (s.add id size).counters p = stockOf s.counters p + if p id then (1, size) else 0 := by
  have hword : wordMax ≤ longMax := by decide
  have hsquare : wordMax * wordMax ≤ longMax := by decide
  apply stockOf_bump id (Nat.le_trans hsize hword)
  intro k hk
  constructor
  · calc k.2.instances ≤ total (s.counters.map (·.2.instances)) := le_total (·.2.instances) hk
      _ ≤ n := h.instances
      _ < wordMax := hn
      _ ≤ longMax := hword
  · calc k.2.bytes + size ≤ total (s.counters.map (·.2.bytes)) + size :=
          Nat.add_le_add_right (le_total (·.2.bytes) hk) _
      _ ≤ n * wordMax + wordMax := Nat.add_le_add h.bytes hsize
      _ = (n + 1) * wordMax := (Nat.succ_mul n wordMax).symm
      _ ≤ wordMax * wordMax := Nat.mul_le_mul_right wordMax hn
      _ ≤ longMax := hsquare

/-- Counts some objects of a heap. -/
def ofObjects (g : HeapGraph) (ids : List ObjectId) : Tally :=
  ids.foldl (fun s id => s.add (g.classOf id) (g.sizeOf id)) {}

theorem ofObjects_append (g : HeapGraph) (ids : List ObjectId) (id : ObjectId) :
    ofObjects g (ids ++ [id]) = (ofObjects g ids).add (g.classOf id) (g.sizeOf id) := by
  unfold ofObjects
  rw [List.foldl_append]
  rfl

/-- No counter is ever full. -/
theorem stockOf_ofObjects (g : HeapGraph) (ids : List ObjectId) (hlen : ids.length ≤ wordMax) :
    (ofObjects g ids).Within ids.length ∧
      ∀ p, stockOf (ofObjects g ids).counters p = g.stock (ids.filter fun id => p (g.classOf id)) := by
  induction ids using List.reverseRecOn with
  | nil => exact ⟨within_empty 0, fun _ => rfl⟩
  | append_singleton ids id ih =>
    rw [List.length_append, List.length_singleton] at hlen
    obtain ⟨hwithin, hstock⟩ := ih (Nat.le_of_succ_le hlen)
    rw [ofObjects_append]
    constructor
    · rw [List.length_append]
      exact hwithin.add _ (g.sizeOf_le id)
    · intro p
      rw [hwithin.stockOf_add hlen (g.sizeOf_le id), hstock, List.filter_append, HeapGraph.stock_append,
        List.filter_singleton]
      congr 1
      cases p (g.classOf id) <;> rfl

/-- A histogram has what the tally behind it has. -/
theorem stock_histogram {classes : ClassTable} {h : Histogram} (hh : s.histogram classes = .ok h) :
    h.stock = stockOf s.counters (fun _ => true) ∧
      ∀ name, h.stockUnder name = stockOf s.counters fun id => classes.displayName id == name := by
  unfold Tally.histogram Histogram.ofEntries at hh
  dsimp only at hh
  split at hh
  · cases hh
  · cases hh
    constructor
    · unfold Histogram.stock stockOf
      rw [List.filter_true, sum_pairs, List.map_map, List.map_map, total_eq_sum, total_eq_sum]
      rfl
    · intro name
      have hsorted := List.mergeSort_perm
        (s.counters.map fun k => (⟨classes.displayName k.1, k.2.instances, k.2.bytes⟩ : HistogramEntry))
        HistogramEntry.before
      unfold Histogram.stockUnder stockOf
      dsimp only
      rw [((hsorted.filter _).map _).sum_eq, List.filter_map, List.map_map]
      rfl

end Tally

/-- The histogram of a tally of some objects has these objects. -/
theorem stock_ofObjects {g : HeapGraph} {ids : List ObjectId} {h : Histogram} (hlen : ids.length ≤ wordMax)
    (hh : (Tally.ofObjects g ids).histogram g.classes = .ok h) :
    h.stock = g.stock ids ∧ ∀ name, h.stockUnder name = g.stock (ids.filter (g.showsUnder name)) := by
  obtain ⟨htotals, hunder⟩ := Tally.stock_histogram hh
  obtain ⟨-, hstock⟩ := Tally.stockOf_ofObjects g ids hlen
  constructor
  · rw [htotals, hstock, List.filter_true]
  · intro name
    rw [hunder, hstock]
    rfl

namespace Walk
variable {t : Terrain} {fresh : Run} {w : Walk} {next rest held : List ObjectId} {id : ObjectId}
  {segment : Phase → List ObjectId}

/-- Every visit so far is counted among the strong ones or among the others. -/
def Sorted (t : Terrain) (w : Walk) : Prop :=
  ∃ strongs others, (w.run.visitOrder w.visitedCount).Perm (strongs ++ others) ∧
    w.strong = Tally.ofObjects t.graph strongs ∧ w.nonStrong = Tally.ofObjects t.graph others ∧
    w.summary.strongVisited = strongs.length ∧ w.summary.nonStrongVisited = others.length ∧
    w.summary.visitedInstances = w.visitedCount

theorem count_visits (s : TraversalSummary) (P : Phase) (edges size : Nat) (leaf : Bool) :
    (s.count P edges size leaf).visitedInstances = s.visitedInstances + 1 ∧
      (s.count P edges size leaf).nonStrongVisited = s.nonStrongVisited + if P.isStrong then 0 else 1 := by
  unfold TraversalSummary.count
  cases P <;> exact ⟨rfl, rfl⟩

theorem visit_visits (t : Terrain) (w : Walk) (next : List ObjectId) (id : ObjectId) :
    (w.visit t next id).1.summary.visitedInstances = w.summary.visitedInstances + 1 ∧
      (w.visit t next id).1.summary.nonStrongVisited =
        w.summary.nonStrongVisited + if w.phase.isStrong then 0 else 1 := by
  obtain ⟨q, hq, -⟩ := postpone_eq t w id
  unfold visit
  rw [hq]
  dsimp only
  split
  · exact count_visits _ _ _ _ _
  · exact count_visits _ _ _ _ _

theorem Sorted.visit (hw : Inv t fresh w segment (next ++ id :: rest) held) (h : w.Sorted t) :
    (w.visit t next id).1.Sorted t := by
  have horder := hw.visitOrder_visit
  obtain ⟨hall, hnonStrong⟩ := visit_visits t w next id
  obtain ⟨q, nominated, summary, heq, -, hstrong⟩ := visit_eq t w next id
  rw [heq] at horder hall hnonStrong ⊢
  dsimp only at horder hall hnonStrong
  obtain ⟨strongs, others, hperm, hstrongs, hothers, hn, hm, hvisited⟩ := h
  have hmore := (hperm.append_right [id])
  rw [← horder] at hmore
  by_cases hphase : w.phase.isStrong = true
  · -- the visit goes behind the strong ones
    refine ⟨strongs ++ [id], others, ?_, ?_, ?_, ?_, ?_, ?_⟩
    · apply hmore.trans
      rw [List.append_assoc, List.append_assoc]
      exact List.perm_append_comm.append_left strongs
    · dsimp only
      rw [if_pos hphase, hstrongs, Tally.ofObjects_append]
    · dsimp only
      rw [if_pos hphase, hothers]
    · rw [hstrong, if_pos hphase, hn, List.length_append]
      rfl
    · rw [hnonStrong, if_pos hphase, hm]
      rfl
    · rw [hall, hvisited]
  · refine ⟨strongs, others ++ [id], ?_, ?_, ?_, ?_, ?_, ?_⟩
    · rw [← List.append_assoc]
      exact hmore
    · dsimp only
      rw [if_neg hphase, hstrongs]
    · dsimp only
      rw [if_neg hphase, hothers, Tally.ofObjects_append]
    · rw [hstrong, if_neg hphase, hn]
      rfl
    · rw [hnonStrong, if_neg hphase, hm, List.length_append]
      rfl
    · rw [hall, hvisited]

theorem kept_sorted (t : Terrain) (fresh : Run) : Kept t fresh (Sorted t) := by
  apply Kept.of_visits
  · intro w parents roles phase frontier queues roots h
    exact h
  · intro w segment next id rest held hw h
    exact h.visit hw

theorem sorted_start (hf : fresh.IsFresh) (nominated : List ClassId) : (start t fresh nominated).Sorted t := by
  obtain ⟨w, hw, heq⟩ := exists_opening t hf nominated
  obtain ⟨hcount, hstrong, hnonStrong, hsummary, -⟩ := hw.blank
  rw [heq]
  refine ⟨[], [], ?_, hstrong, hnonStrong, ?_, ?_, ?_⟩
  · dsimp only
    rw [hcount]
    rfl
  · dsimp only
    rw [hsummary]
    rfl
  · dsimp only
    rw [hsummary]
    rfl
  · dsimp only
    rw [hsummary, hcount]

end Walk

section
variable {graph : HeapGraph} {fresh run : Run} {traversal : Traversal}

/-- The two histograms of a traversal share out what it has visited. -/
structure Shares (graph : HeapGraph) (order : List ObjectId) (traversal : Traversal) : Prop where
  nodup : order.Nodup
  sub : ∀ id ∈ order, id ∈ graph.objectIds
  totals : traversal.strong.stock + traversal.nonStrong.stock = graph.stock order
  classes : ∀ name, traversal.strong.stockUnder name + traversal.nonStrong.stockUnder name =
    graph.stock (order.filter (graph.showsUnder name))
  visits : traversal.summary.visitedInstances =
    traversal.summary.strongVisited + traversal.summary.nonStrongVisited
  count : traversal.summary.visitedInstances = traversal.visitedCount

theorem traverse_shares (hf : fresh.IsFresh) (hcount : fresh.objectCount = graph.objectCount)
    (ht : Traversed graph fresh run traversal) :
    Shares graph (run.visitOrder traversal.visitedCount) traversal := by
  have hk := Walk.kept_sorted (.of graph fresh) fresh
  obtain ⟨w, segment, held, hw, -, hsorted, rfl, hresult⟩ :=
    exists_walk_keeping hk (Walk.sorted_start hf _) hf ht
  obtain ⟨strongs, others, hperm, hstrong, hnonStrong, hn, hm, hvisited⟩ := hsorted
  obtain ⟨hvisitedCount, -, hstrongs, hstrongVisited⟩ := Walk.traversal_eq hresult
  obtain ⟨hothers, hsummary⟩ := Walk.nonStrong_of_traversal hresult
  have hlen : strongs.length + others.length = w.visitedCount := by
    have hlength := hperm.length_eq
    rw [Run.visitOrder, List.length_map, List.length_range, List.length_append] at hlength
    exact hlength.symm
  have hroom : w.visitedCount ≤ wordMax := by
    have hle := hw.visitedCount_le
    have hheap := graph.objects_le
    change graph.objectCount ≤ wordMax at hheap
    omega
  rw [hstrong] at hstrongs
  rw [hnonStrong] at hothers
  obtain ⟨hstrongStock, hstrongUnder⟩ := stock_ofObjects (by omega) hstrongs
  obtain ⟨hotherStock, hotherUnder⟩ := stock_ofObjects (by omega) hothers
  rw [hvisitedCount]
  exact {
    nodup := by
      rw [hw.visits.order]
      exact hw.nodup_gather
    sub := by
      intro id hid
      rw [hw.visits.order] at hid
      have hclaimed := hw.ledger.claimed id (List.mem_append_left _ hid)
      obtain ⟨hpos, hle⟩ := (hw.ledger.valid_iff id).mp hclaimed.1
      rw [hcount] at hle
      exact List.mem_range'_1.mpr ⟨hpos, by omega⟩
    totals := by
      rw [hstrongStock, hotherStock, HeapGraph.stock_perm hperm]
      exact HeapGraph.stock_append.symm
    classes := by
      intro name
      rw [hstrongUnder, hotherUnder, HeapGraph.stock_perm (hperm.filter _), List.filter_append]
      exact HeapGraph.stock_append.symm
    visits := by
      rw [hsummary]
      dsimp only
      omega
    count := by
      rw [hsummary]
      exact hvisited.trans hvisitedCount.symm }

/-- The objects of a heap are those of a list and the others. -/
theorem perm_append_others {order ids : List ObjectId} (hnodup : order.Nodup) (hids : ids.Nodup)
    (hsub : ∀ id ∈ order, id ∈ ids) : ids.Perm (order ++ ids.filter fun id => id ∉ order) := by
  have hinside : (ids.filter fun id => id ∈ order).Perm order := by
    apply (List.perm_ext_iff_of_nodup (hids.filter _) hnodup).mpr
    intro id
    rw [List.mem_filter, decide_eq_true_iff]
    exact ⟨fun h => h.2, fun h => ⟨hsub id h, h⟩⟩
  have hsplit := List.filter_append_perm (fun id => decide (id ∈ order)) ids
  simp only [← decide_not] at hsplit
  exact hsplit.symm.trans (hinside.append_right _)

end

/-- The subtractions behind the line about unreachable objects are exact. -/
theorem Report.histograms_eq {full : Histogram} {t : Traversal} {stock : Nat × Nat} (o : HistogramOptions)
    (h : full.stock = t.strong.stock + t.nonStrong.stock + stock) :
    histograms full t o = histogramTable full "All" t.strong "Strong-ref" o ++ unreachableLine stock := by
  have hinstances : full.instanceCount - (t.strong.instanceCount + t.nonStrong.instanceCount) = stock.1 := by
    have hfirst : full.instanceCount = t.strong.instanceCount + t.nonStrong.instanceCount + stock.1 :=
      congrArg Prod.fst h
    omega
  have hbytes : full.bytesCount - (t.strong.bytesCount + t.nonStrong.bytesCount) = stock.2 := by
    have hsecond : full.bytesCount = t.strong.bytesCount + t.nonStrong.bytesCount + stock.2 :=
      congrArg Prod.snd h
    omega
  unfold histograms unreachableLine
  rw [hinstances, hbytes]
  simp only [String.append_assoc]

theorem Report.tellsUnreachable {stock : Nat × Nat} (hcount : stock.1 ≤ wordMax) (hbytes : stock.2 ≤ longMax) :
    TellsUnreachable stock (unreachableLine stock) := by
  refine ⟨_, _, ?_, Text.showsShort_shortCount hcount, Text.showsShort_shortSize hbytes⟩
  rw [← Text.padLeft_eq, ← Text.padLeft_eq]
  rfl

namespace Analysis
variable {input : AnalysisInput} {journal : Journal} {run : Run} {t : Traversal}
  {dominators : DominatorOutcome} {a : Analysis}

theorem finish_eq_ok (h : finish input run t dominators = .ok a) : ∃ full,
    input.snapshot.graph.tally.histogram input.snapshot.graph.classes = .ok full ∧ a.Found run t full ∧
      ∃ summary, a.report.main = Report.mainPart a.run t full summary dominators := by
  unfold finish at h
  dsimp only at h
  cases hfull : input.snapshot.graph.tally.histogram input.snapshot.graph.classes with
  | error c =>
    rw [hfull] at h
    cases h
  | ok full =>
    rw [hfull] at h
    cases h
    exact ⟨full, rfl, ⟨rfl, rfl, rfl, rfl, rfl⟩, _, rfl⟩

theorem ok_of_andThen {α β : Type} {g : α → Journal → Journal × Except Failure β}
    {r : Journal × Except Failure α} {b : β} (h : (andThen g r).2 = .ok b) :
    ∃ a, r.2 = .ok a ∧ (g a r.1).2 = .ok b := by
  obtain ⟨j, e | a⟩ := r
  · cases h
  · exact ⟨a, rfl, h⟩

/-- An analysis that succeeds, whoever watches it, has made its traversal. -/
theorem found_of_analyze (h : (analyze input journal).2 = .ok a) : ∃ fresh run full,
    Run.create input.config input.snapshot.graph.objectCount input.tree? input.space = .ok fresh ∧
      Traversed input.snapshot.graph fresh run a.traversal ∧
      input.snapshot.graph.tally.histogram input.snapshot.graph.classes = .ok full ∧
      a.Found run a.traversal full ∧
      ∃ summary dominators, a.report.main = Report.mainPart a.run a.traversal full summary dominators := by
  rw [analyze_eq] at h
  cases hfresh : Run.create input.config input.snapshot.graph.objectCount input.tree? input.space with
  | error f =>
    rw [hfresh] at h
    cases h
  | ok fresh =>
    rw [hfresh] at h
    obtain ⟨⟨run, t⟩, hattempt, h⟩ := ok_of_andThen h
    obtain ⟨dominators, -, h⟩ := ok_of_andThen h
    unfold conclude at h
    dsimp only at h
    -- the traversal of the attempt is that of the analysis
    unfold Run.attempt at hattempt
    dsimp only at hattempt
    cases hresult : (fresh.traverse input.snapshot.graph [⟨0.0, 0.5⟩] journal).result with
    | error f =>
      rw [hresult] at hattempt
      cases hattempt
    | ok t' =>
      rw [hresult] at hattempt
      cases hattempt
      have ht := traversed_of_result hresult
      split at h
      · cases h
      · next b hfinish =>
        cases h
        obtain ⟨full, hfull, hfound, summary, hmain⟩ := finish_eq_ok hfinish
        obtain ⟨-, htraversal, -⟩ := id hfound
        rw [← htraversal] at ht hfound hmain
        exact ⟨fresh, _, full, rfl, ht, hfull, hfound, summary, dominators, hmain⟩

end Analysis

/-- Folding changes nothing but sizes. -/
theorem Run.foldSizes_eq (run : Run) (count : Nat) :
    ∃ sizes, run.foldSizes count = { run with sizes := sizes } := by
  have hfold : ∀ (ids : List ObjectId) (r : Run),
      ∃ sizes, ids.foldl Run.foldSize r = { r with sizes := sizes } := by
    intro ids
    induction ids with
    | nil => exact fun r => ⟨r.sizes, rfl⟩
    | cons id ids ih =>
      intro r
      have hstep : ∃ sizes, r.foldSize id = { r with sizes := sizes } := by
        unfold Run.foldSize
        dsimp only
        split
        · exact ⟨r.sizes, rfl⟩
        · exact ⟨_, rfl⟩
      obtain ⟨sizes, hstep⟩ := hstep
      obtain ⟨sizes', hrest⟩ := ih (r.foldSize id)
      rw [List.foldl_cons, hrest, hstep]
      exact ⟨sizes', rfl⟩
  exact hfold _ run

theorem Analysis.config_eq {input : AnalysisInput} {fresh run : Run} {a : Analysis} {full : Histogram}
    (hfresh : Run.create input.config input.snapshot.graph.objectCount input.tree? input.space = .ok fresh)
    (ht : Traversed input.snapshot.graph fresh run a.traversal) (hfound : a.Found run a.traversal full) :
    a.run.config = input.config := by
  obtain ⟨w, segment, held, hw, -, rfl, -⟩ := exists_walk ⟨_, _, _, _, hfresh⟩ ht
  obtain ⟨sizes, hrun⟩ := w.run.foldSizes_eq a.traversal.visitedCount
  rw [hfound.run, hrun]
  exact hw.visits.heap.config.trans (Run.create_fields hfresh).1

/-- The three places where an object is counted, and the line about the last of them as it is printed. -/
theorem Analysis.conserves {input : AnalysisInput} {journal : Journal} {a : Analysis}
    (ha : (analyze input journal).2 = .ok a) : ∃ full, a.report.full? = some full ∧
    full.stock = a.report.strong.stock + a.report.nonStrong.stock +
      input.snapshot.graph.stock (a.unvisited input.snapshot.graph) ∧
    (∀ name, full.stockUnder name = a.report.strong.stockUnder name + a.report.nonStrong.stockUnder name +
      input.snapshot.graph.stock ((a.unvisited input.snapshot.graph).filter
        (input.snapshot.graph.showsUnder name))) ∧
    ((input.config.histogram.includeByCount || input.config.histogram.includeBySize) = true → ∃ rest,
      a.report.main = Report.titled "Histogram"
        (histogramTable full "All" a.report.strong "Strong-ref" input.config.histogram ++
          Report.unreachableLine (input.snapshot.graph.stock (a.unvisited input.snapshot.graph))) ++ rest) ∧
    a.traversal.summary.visitedInstances =
      a.traversal.summary.strongVisited + a.traversal.summary.nonStrongVisited ∧
    a.traversal.summary.visitedInstances = a.traversal.visitedCount := by
  obtain ⟨fresh, run, full, hfresh, ht, hfull, hfound, summary, dominators, hmain⟩ :=
    Analysis.found_of_analyze ha
  have hf : fresh.IsFresh := ⟨_, _, _, _, hfresh⟩
  have hshares := traverse_shares hf (Run.create_fields hfresh).2 ht
  obtain ⟨sizes, hfolded⟩ := run.foldSizes_eq a.traversal.visitedCount
  have horder : a.run.visitOrder a.traversal.visitedCount = run.visitOrder a.traversal.visitedCount := by
    rw [hfound.run, hfolded]
    rfl
  rw [← horder] at hshares
  have hsplit : input.snapshot.graph.objectIds.Perm
      (a.run.visitOrder a.traversal.visitedCount ++ a.unvisited input.snapshot.graph) :=
    perm_append_others hshares.nodup List.nodup_range' hshares.sub
  have hlen := input.snapshot.graph.length_objectIds_le
  obtain ⟨htotals, hunder⟩ := stock_ofObjects hlen hfull
  have hall : full.stock = a.report.strong.stock + a.report.nonStrong.stock +
      input.snapshot.graph.stock (a.unvisited input.snapshot.graph) := by
    rw [htotals, hfound.strong, hfound.nonStrong, hshares.totals, HeapGraph.stock_perm hsplit]
    exact HeapGraph.stock_append
  refine ⟨full, hfound.full, hall, ?_, ?_, hshares.visits, hshares.count⟩
  · intro name
    rw [hunder, hfound.strong, hfound.nonStrong, hshares.classes, HeapGraph.stock_perm (hsplit.filter _),
      List.filter_append]
    exact HeapGraph.stock_append
  · intro hincluded
    rw [hfound.strong, hfound.nonStrong] at hall
    unfold Report.mainPart at hmain
    dsimp only at hmain
    rw [Analysis.config_eq hfresh ht hfound, if_pos hincluded, Report.histograms_eq _ hall, ← hfound.strong] at hmain
    simp only [String.append_assoc] at hmain ⊢
    exact ⟨_, hmain⟩

theorem Analysis.unvisited_length_le (a : Analysis) (g : HeapGraph) : (a.unvisited g).length ≤ wordMax :=
  (List.length_filter_le _ _).trans g.length_objectIds_le

/-- Nothing is lost between the heap and its report. Of an analysis that succeeds, the histogram of all
objects has what the strong and the other histogram have together with the objects that were never visited:
in its totals and under every class name. So the line about unreachable objects, where there is a section of
histograms, shows their number and their bytes, though in short; and the visits are counted alike
everywhere. -/
theorem analyze_conserves_heap {input : AnalysisInput} {journal : Journal} {a : Analysis}
    (ha : (Analysis.analyze input journal).2 = .ok a) : ∃ full, a.report.full? = some full ∧
    full.stock = a.report.strong.stock + a.report.nonStrong.stock +
      input.snapshot.graph.stock (a.unvisited input.snapshot.graph) ∧
    (∀ name, full.stockUnder name = a.report.strong.stockUnder name + a.report.nonStrong.stockUnder name +
      input.snapshot.graph.stock ((a.unvisited input.snapshot.graph).filter
        (input.snapshot.graph.showsUnder name))) ∧
    ((input.config.histogram.includeByCount || input.config.histogram.includeBySize) = true → ∃ line rest,
      a.report.main = Report.titled "Histogram"
        (histogramTable full "All" a.report.strong "Strong-ref" input.config.histogram ++ line) ++ rest ∧
      Report.TellsUnreachable (input.snapshot.graph.stock (a.unvisited input.snapshot.graph)) line) ∧
    a.traversal.summary.visitedInstances =
      a.traversal.summary.strongVisited + a.traversal.summary.nonStrongVisited ∧
    a.traversal.summary.visitedInstances = a.traversal.visitedCount := by
  obtain ⟨full, hfull, hall, hclasses, hline, hvisits⟩ := Analysis.conserves ha
  refine ⟨full, hfull, hall, hclasses, fun hincluded => ?_, hvisits⟩
  obtain ⟨rest, hmain⟩ := hline hincluded
  obtain ⟨hcount, hbytes⟩ := @HeapGraph.stock_le input.snapshot.graph _ (a.unvisited_length_le input.snapshot.graph)
  exact ⟨_, rest, hmain, Report.tellsUnreachable hcount hbytes⟩

/-- A heap with an object for each place: a strong one, a soft reference that is strong as well, its
referent, and one that nothing reaches. Both classes have the same name. -/
def scatteredHeap : HeapGraph where
  classes := .ofList [{ name := "Node" }, { name := "Node" }]
  objects := #[
    { classId := 1, size := 8, references := [2] },
    { classId := 2, size := 16, references := [3], referent? := some ⟨.soft, 0⟩ },
    { classId := 1, size := 24 },
    { classId := 2, size := 4 }]
  roots := [{ id := 1 }]

def scatteredInput : AnalysisInput where
  snapshot := { graph := scatteredHeap }
  tree? := none
  config := {}
  space := { available := .ok 1000000000 }

set_option maxRecDepth 10000 in
theorem analyze_conserves_heap_scatteredHeap : ∃ a, (Analysis.analyze scatteredInput {}).2 = .ok a ∧
    a.unvisited scatteredHeap = [4] ∧ a.report.strong.stock = (2, 24) ∧ a.report.nonStrong.stock = (1, 24) ∧
    ∃ full, a.report.full? = some full ∧ full.stock = (2, 24) + (1, 24) + scatteredHeap.stock [4] ∧
      ∃ rest, a.report.main = Report.titled "Histogram"
        (histogramTable full "All" a.report.strong "Strong-ref" scatteredInput.config.histogram ++
          "Unreachable objects:      1       4b\n") ++ rest := by
  have hdone : (Analysis.analyze scatteredInput {}).2.toOption.any (fun a =>
      a.unvisited scatteredHeap = [4] ∧ a.report.strong.stock = (2, 24) ∧
        a.report.nonStrong.stock = (1, 24)) = true := by
    decide +kernel
  obtain ⟨a, ha, hplaces⟩ := exists_ok_of_any hdone
  obtain ⟨hunvisited, hstrong, hnonStrong⟩ := of_decide_eq_true hplaces
  obtain ⟨full, hfull, hall, -, hline, -⟩ := analyze_conserves_heap ha
  change full.stock = a.report.strong.stock + a.report.nonStrong.stock +
    scatteredHeap.stock (a.unvisited scatteredHeap) at hall
  obtain ⟨line, rest, hmain, count, size, rfl, hcount, hsize⟩ := hline rfl
  change Text.ShowsShort 1000 _ (scatteredHeap.stock (a.unvisited scatteredHeap)).1 count at hcount
  change Text.ShowsShort 1024 _ (scatteredHeap.stock (a.unvisited scatteredHeap)).2 size at hsize
  rw [hunvisited] at hall hcount hsize
  rw [hstrong, hnonStrong] at hall
  -- what is below the base is printed in full
  obtain rfl : count = "1" := hcount.eq_of_lt (by decide) (by decide)
  obtain rfl : size = "4b" := hsize.eq_of_lt (by decide) (by decide)
  exact ⟨a, ha, hunvisited, hstrong, hnonStrong, full, hfull, hall, rest, hmain⟩

/-- A heap with one object that nothing reaches. -/
def looseHeap (size : UInt32) : HeapGraph where
  classes := .ofList [{ name := "Node" }]
  objects := #[{ classId := 1, size := 8 }, { classId := 1, size }]
  roots := [{ id := 1 }]
  objects_le := (by decide : 2 ≤ wordMax)

def looseInput (size : UInt32) : AnalysisInput where
  snapshot := { graph := looseHeap size }
  tree? := none
  config := {}
  space := { available := .ok 1000000000 }

/-- The line about unreachable objects is not exact: it is the same for 2000 bytes and for 2001. -/
theorem unreachable_line_rounds : ∃ a b full full' rest rest',
    (Analysis.analyze (looseInput 2000) {}).2 = .ok a ∧ (Analysis.analyze (looseInput 2001) {}).2 = .ok b ∧
    (looseHeap 2000).stock (a.unvisited (looseHeap 2000)) = (1, 2000) ∧
    (looseHeap 2001).stock (b.unvisited (looseHeap 2001)) = (1, 2001) ∧
    a.report.full? = some full ∧ b.report.full? = some full' ∧
    a.report.main = Report.titled "Histogram"
      (histogramTable full "All" a.report.strong "Strong-ref" {} ++
        "Unreachable objects:      1   1.95KB\n") ++ rest ∧
    b.report.main = Report.titled "Histogram"
      (histogramTable full' "All" b.report.strong "Strong-ref" {} ++
        "Unreachable objects:      1   1.95KB\n") ++ rest' := by
  have hdone : (Analysis.analyze (looseInput 2000) {}).2.toOption.any (fun a =>
      a.unvisited (looseHeap 2000) = [2]) = true := by
    decide +kernel
  have hdone' : (Analysis.analyze (looseInput 2001) {}).2.toOption.any (fun b =>
      b.unvisited (looseHeap 2001) = [2]) = true := by
    decide +kernel
  obtain ⟨a, ha, hunvisited⟩ := exists_ok_of_any hdone
  obtain ⟨b, hb, hunvisited'⟩ := exists_ok_of_any hdone'
  obtain ⟨full, hfull, -, -, hline, -⟩ := Analysis.conserves ha
  obtain ⟨full', hfull', -, -, hline', -⟩ := Analysis.conserves hb
  obtain ⟨rest, hmain⟩ := hline rfl
  obtain ⟨rest', hmain'⟩ := hline' rfl
  have hloose : (looseHeap 2000).stock (a.unvisited (looseHeap 2000)) = (1, 2000) := by
    rw [of_decide_eq_true hunvisited]
    decide
  have hloose' : (looseHeap 2001).stock (b.unvisited (looseHeap 2001)) = (1, 2001) := by
    rw [of_decide_eq_true hunvisited']
    decide
  have hprinted : Report.unreachableLine (1, 2000) = "Unreachable objects:      1   1.95KB\n" := by
    decide +kernel
  have hprinted' : Report.unreachableLine (1, 2001) = "Unreachable objects:      1   1.95KB\n" := by
    decide +kernel
  refine ⟨a, b, full, full', rest, rest', ha, hb, hloose, hloose', hfull, hfull', ?_, ?_⟩
  · rw [← hprinted, ← hloose]
    exact hmain
  · rw [← hprinted', ← hloose']
    exact hmain'

end HeapRetention
