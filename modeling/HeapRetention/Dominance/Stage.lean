import HeapRetention.Dominance.Tree
import HeapRetention.Text.HeadBuffer
import HeapRetention.Numbers

/-!
The dominator stage: it books its lists, numbers the objects, indexes their edges, finds immediate
dominators, adds up retained sizes and draws the flame graph. Between the steps the caller may stop it.
-/

namespace HeapRetention

namespace DominatorStage

/-- The scratch space that the stage is expected to need, in bytes. -/
def estimate (visitedCount edgeCount : Nat) : Nat :=
  20 * visitedCount + 10 * edgeCount

/-- The estimate, which has to fit 64 bits. -/
def estimateChecked (visitedCount edgeCount : Nat) : Except Crash Nat :=
  if longMax < estimate visitedCount edgeCount then .error .overflow else .ok (estimate visitedCount edgeCount)

/-- How many successors the frames of the numbering hold at most. -/
def room (g : FlowGraph) (traversal : Traversal) : Nat :=
  max 1 (traversal.summary.edgeCount + g.roots.length)

/-- The lists of the numbering, in the order they are asked for. -/
def numberingLists (objectCount room : Nat) : List ListRequest := [
  { name := "postorderList", capacity := objectCount + 3 },
  { name := "postorderNumbers", capacity := objectCount + 3 },
  { name := "dominatorBuf1", capacity := objectCount + 3 },
  { name := "childStack", capacity := room },
  { name := "dominatorBuf2", capacity := objectCount + 3 },
  { name := "dominatorBuf3", capacity := objectCount + 3 }]

/-- The lists of the edge index. The edges themselves go where the frames were if they fit there. -/
def indexLists (edgeCount room : Nat) : List ListRequest :=
  { name := "cardRefs", capacity := max 1 edgeCount, width := .short } ::
    if edgeCount ≤ room then [] else [{ name := "incoming", capacity := max 1 edgeCount }]

/-- Numbers the objects. -/
def number (g : FlowGraph) (room : Nat) (space : ScratchSpace) : Except Failure Postorder :=
  if longMax < room then .error (.crash .overflow)
  else
    match space.reserve (numberingLists g.run.objectCount room) with
    | .error f => .error f
    | .ok () => Postorder.ofGraph g room

/-- Indexes the edges of the numbered objects. -/
def index (g : FlowGraph) (room : Nat) (space : ScratchSpace) (p : Postorder) : Except Failure EdgeIndex :=
  match space.reserve (indexLists p.edgeCount room) with
  | .error f => .error f
  | .ok () => (EdgeIndex.ofGraph g p (.covering p.superRoot)).mapError .crash

/-- The immediate dominators and what each pass did. -/
def solve (g : FlowGraph) (p : Postorder) (x : EdgeIndex) : Slots × List PassCounts :=
  let (f, passes) := Fixpoint.solve x p.superRoot g.run.config.dominator.maxDominatorIterations
    (.start p.superRoot)
  (f.idoms, passes)

/-- Whether the passes ended because nothing changed any more. -/
def converged (passes : List PassCounts) : Bool :=
  passes.getLast?.any (·.changed == 0)

/-- What the log says about each pass, and about passes that ended too early. -/
def logPasses (j : Journal) (passes : List PassCounts) : Journal :=
  let j := passes.zipIdx.foldl (fun j (c, i) => j.log .debug
    ("iteration " ++ toString i ++ " recomputed " ++ toString c.updates ++ " and changed " ++
      toString c.changed ++ " idoms in " ++ Elapsed.unmeasured.text ++ "; called intersect() " ++
      toString c.intersections ++ " times")) j
  if converged passes then j
  else j.log .warn ("dominator computation stopped after " ++ toString passes.length ++
    " iterations without converging")

/-- The numbers about a stage that has come to its end. -/
def stats (g : FlowGraph) (traversal : Traversal) (p : Postorder) (passes : List PassCounts)
    (renderedNodes : Nat) : DominatorStats :=
  let cards := CardTable.covering p.superRoot
  { edgeCount := traversal.summary.edgeCount
    numberedEdges := p.edgeCount
    rootCount := g.roots.length
    superRoot := p.superRoot
    maxDepth := p.maxDepth
    iterations := passes.length
    lastChanged := (passes.getLast?.map (·.changed)).getD 0
    updates := total (passes.map (·.updates))
    intersections := total (passes.map (·.intersections))
    cardCount := cards.count
    cardSize := cards.cardSize
    saved := total (passes.map (·.saved))
    skipped := total (passes.map (·.skipped))
    renderedNodes }

/-- The tree that immediate dominators make of the numbered objects. -/
def tree (g : FlowGraph) (traversal : Traversal) (p : Postorder) (idoms : Slots)
    (passes : List PassCounts) : DominatorTree :=
  let o := g.run.config.dominator
  let retained := Retained.compute g p idoms
  let lines := (FlameGraph.ofTree g.snapshot.graph p idoms retained o.minNodeSize).lines o.maxDepth p.superRoot
  { superRoot := p.superRoot
    objects := p.objects
    numbers := p.numbers
    idoms
    retained
    flameGraph := Text.headText o.headLimit FlameLine.text lines
    stats := stats g traversal p passes lines.length }

/-- Reports a fraction and asks whether to stop. -/
def checkpoint (j : Journal) (slices : List Slice) (fraction : Float) : Bool × Journal :=
  (j.fraction slices fraction).poll

/-- The whole stage. -/
def compute (g : FlowGraph) (traversal : Traversal) (space : ScratchSpace) (slices : List Slice)
    (j : Journal) : Journal × Except Failure DominatorTree :=
  let room := room g traversal
  let j := j.stage "Computing postorder numbers"
  match number g room space with
  | .error f => (j, .error f)
  | .ok p =>
    let j := j.log .debug ("postorder numbering reached " ++ toString (p.superRoot - 1) ++
      " nodes over " ++ toString p.edgeCount ++ " edges")
    let (stop, j) := checkpoint j slices 0.2
    if stop then (j, .error (.error .canceled))
    else
      let j := j.stage "Computing incoming edges"
      match index g room space p with
      | .error f => (j, .error f)
      | .ok x =>
        let (stop, j) := checkpoint j slices 0.4
        if stop then (j, .error (.error .canceled))
        else
          let (idoms, passes) := solve g p x
          let (stop, j) := checkpoint (logPasses (j.stage "Computing dominators") passes) slices 0.8
          if stop then (j, .error (.error .canceled))
          else
            let tree := tree g traversal p idoms passes
            let j := (j.stage "Computing retained sizes").stage "Building flame graph"
            let j := j.fraction slices 1.0
            (j.log .info ("dominator tree over " ++ toString tree.nodeCount ++ " nodes computed in " ++
              toString tree.stats.iterations ++ " iterations (" ++ tree.stats.totalTime.text ++ ")"),
              .ok tree)

end DominatorStage

end HeapRetention
