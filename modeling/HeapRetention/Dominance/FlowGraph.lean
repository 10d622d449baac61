import HeapRetention.Numbers
import HeapRetention.Reach.Traversal

/-!
The graph that the dominator stage works on. Its nodes are objects that a traversal has visited; its
edges are their strong references and the edges of the synthetic tree. A node above all others, the super
root, leads to every visited root.
-/

namespace HeapRetention

structure FlowGraph where
  /-- The run after its traversal, with sizes not yet folded. -/
  run : Run
  snapshot : Snapshot
  /-- The visited roots in ascending order. -/
  roots : List ObjectId

namespace FlowGraph

/-- The graph that a traversal leaves behind. -/
def of (run : Run) (snapshot : Snapshot) (traversal : Traversal) : FlowGraph where
  run := run
  snapshot := snapshot
  roots := traversal.roots.filter run.wasVisited

/-- The slots of an object that are edges, with those that lead to no visited object left out. -/
def targets (g : FlowGraph) (id : ObjectId) : List ObjectId :=
  (g.snapshot.graph.strongReferences id ++ (g.run.syntheticChildren? id).getD []).filter g.run.wasVisited

/-- The successors of an object in slot order, unless the reader of the dump breaks on it. -/
def successors (g : FlowGraph) (id : ObjectId) : Except Crash (List ObjectId) :=
  match g.snapshot.breaksAt id with
  | some c => .error c
  | none => .ok (g.targets id)

/-- At least the number of edges: those to the roots, all strong references and all edges of the synthetic
tree. -/
def edgeBound (g : FlowGraph) : Nat :=
  let graph := g.snapshot.graph
  g.roots.length + total (graph.objectIds.map fun id => (graph.strongReferences id).length) +
    (g.run.tree?.map SyntheticTree.edgeCount).getD 0

/-- Whether a number is in an ascending array. The search halves a range of `size` elements from
`base` on. -/
def search (a : Array Nat) (x : Nat) : (fuel base size : Nat) → Bool
  | 0, base, _ => a.getD base 0 == x
  | fuel + 1, base, size =>
    if size ≤ 1 then a.getD base 0 == x
    else
      let half := size / 2
      search a x fuel (if x < a.getD (base + half) 0 then base else base + half) (size - half)

/-- Whether a number is in an ascending array. -/
def contains (a : Array Nat) (x : Nat) : Bool :=
  !a.isEmpty && search a x a.size 0 a.size

end FlowGraph

end HeapRetention
