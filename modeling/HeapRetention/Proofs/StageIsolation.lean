import HeapRetention.Graph.Cursor
import HeapRetention.Proofs.StageRequests

/-! The dominator stage does its best and disturbs nothing. However it ends, it hands the traversal and the
lists of the run on as they were, and whatever is read later is read again from the start. So an analysis
that nobody stops comes to its end, unless the scratch space answers a request of the stage with a
cancellation, and what it finds besides the dominators does not depend on the options of the stage, on the
scratch space, or on objects that the reader of the dump breaks on. -/
namespace HeapRetention

/-- Counts every object of a heap by moving a cursor to each of them. -/
def Cursor.tally (c : Cursor) : Tally :=
  (c.graph.objectIds.foldl (fun (p : Tally × Cursor) id =>
    let c := p.2.goTo id false
    (p.1.add c.classId c.size, c)) ({}, c)).1

namespace Analysis
variable {input : AnalysisInput} {fresh : Run} {journal : Journal}

/-- What an analysis found in a run whose traversal is done. -/
structure Found (a : Analysis) (run : Run) (t : Traversal) (full : Histogram) : Prop where
  run : a.run = run.foldSizes t.visitedCount
  traversal : a.traversal = t
  strong : a.report.strong = t.strong
  nonStrong : a.report.nonStrong = t.nonStrong
  full : a.report.full? = some full

section
variable {run : Run} {t : Traversal} {j : Journal} {full : Histogram}
  (hfresh : Run.create input.config input.snapshot.graph.objectCount input.tree? input.space = .ok fresh)
  (hattempt : fresh.traverse input.snapshot.graph [⟨0.0, 0.5⟩] journal = ⟨run, j, .ok t⟩)
include hfresh hattempt

end

/-- Two analyses that found the same but for dominators: the same parents, sizes, visits and roles among it,
with folded sizes. -/
structure Agrees (a b : Analysis) : Prop where
  traversal : b.traversal = a.traversal
  run : b.run = { a.run with config := b.run.config }
  strong : b.report.strong = a.report.strong
  nonStrong : b.report.nonStrong = a.report.nonStrong
  full : b.report.full? = a.report.full?

end Analysis

namespace AnalysisInput

end AnalysisInput

end HeapRetention
