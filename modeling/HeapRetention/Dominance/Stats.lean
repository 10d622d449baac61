import HeapRetention.Json.Value
import HeapRetention.Options
import HeapRetention.Reach.Traversal
import HeapRetention.Text.Decimal
import HeapRetention.Text.Elapsed

/-!
Numbers about the dominator stage and their text in the report.
-/

namespace HeapRetention

structure DominatorStats where
  edgeCount : Nat := 0
  /-- The edges that the numbering met. -/
  numberedEdges : Nat := 0
  rootCount : Nat := 0
  superRoot : Nat := 0
  maxDepth : Nat := 0
  iterations : Nat := 0
  /-- Nodes that the last pass changed; not zero if the passes stopped at their limit. -/
  lastChanged : Nat := 0
  updates : Nat := 0
  intersections : Nat := 0
  cardCount : Nat := 0
  cardSize : Nat := 0
  /-- Nodes passed over because their card was clean. -/
  saved : Nat := 0
  /-- Predecessors passed over because the super root was met. -/
  skipped : Nat := 0
  renderedNodes : Nat := 0
  postorderTime : Elapsed := .unmeasured
  incomingTime : Elapsed := .unmeasured
  sortTime : Elapsed := .unmeasured
  dominatorTime : Elapsed := .unmeasured
  retainedTime : Elapsed := .unmeasured
  flameGraphTime : Elapsed := .unmeasured
  totalTime : Elapsed := .unmeasured
  deriving Repr, DecidableEq

namespace DominatorStats

def toJson (s : DominatorStats) : Json.Value :=
  .object [
    ("edge_count", .number s.edgeCount),
    ("po_edge_count", .number s.numberedEdges),
    ("root_count", .number s.rootCount),
    ("max_ponum", .number s.superRoot),
    ("max_stack_depth", .number s.maxDepth),
    ("iterations", .number s.iterations),
    ("last_iteration_changes", .number s.lastChanged),
    ("idom_updates", .number s.updates),
    ("intersect_calls", .number s.intersections),
    ("card_count", .number s.cardCount),
    ("card_size", .number s.cardSize),
    ("update_calls_saved_by_card_table", .number s.saved),
    ("root_skip_intersect_calls", .number s.skipped),
    ("rendered_nodes", .number s.renderedNodes)]

/-- A quotient with two places; nothing over nothing is zero. -/
def perItem (total count : Nat) : String :=
  Text.fixedPlaces 2 (if count = 0 then 0.0 else ratio total count)

def lines (s : DominatorStats) (o : DominatorOptions) : List String := [
  "Dominator phase total time: " ++ s.totalTime.text,
  "  Compute postorder numbers: " ++ s.postorderTime.text,
  "    edgeCount = " ++ toString s.edgeCount ++ ", poEdgeCount = " ++ toString s.numberedEdges ++
    ", roots = " ++ toString s.rootCount ++ ", maxPonum = " ++ toString s.superRoot ++
    "; max stack depth = " ++ toString s.maxDepth,
  "  Compute incoming edges + card refs: " ++ s.incomingTime.text,
  "  Sort incoming edges: " ++ s.sortTime.text,
  "  Dominator computation: " ++ s.dominatorTime.text,
  "    " ++ toString s.iterations ++ " iterations, " ++ toString s.lastChanged ++
    " idoms changed in the last one",
  "    " ++ toString s.updates ++ " idom updates (" ++ perItem s.updates (max s.superRoot 1) ++
    "x per node); " ++ toString s.intersections ++ " calls to intersect (" ++
    perItem s.intersections s.updates ++ " per idom update)",
  "    card table is " ++ toString s.cardCount ++ " bits x " ++ toString s.cardSize ++
    " obj/bit, saved " ++ toString s.saved ++ " idom updates",
  "    aborting idom update when root is hit saved " ++ toString s.skipped ++ " intersect calls",
  "  Compute retained sizes: " ++ s.retainedTime.text,
  "  Emit flame graph: " ++ s.flameGraphTime.text,
  "    retained size cutoff: " ++ toString o.minNodeSize,
  "    depth cutoff: " ++ toString o.maxDepth,
  "    pruned tree contains " ++ toString s.renderedNodes ++ " nodes " ++
    (if o.headLimit < s.renderedNodes then "(truncated to " ++ toString o.headLimit ++ ")" else "")]

/-- The text of the report. -/
def text (s : DominatorStats) (o : DominatorOptions) : String :=
  String.join ((s.lines o).map (· ++ "\n"))

end DominatorStats

end HeapRetention
