import HeapRetention.Dominance.Fixpoint

/-!
Retained sizes: a node retains itself and whatever it dominates. Since an immediate dominator has a larger
number than its node, one ascending pass adds everything up.
-/

namespace HeapRetention

namespace Retained

/-- Every node with the size of its own object. -/
def own (g : FlowGraph) (p : Postorder) : Slots :=
  p.nodes.foldl (fun sizes node => sizes.put node (g.run.sizeUnits (p.objects.get node)))
    (.create (p.superRoot + 1))

/-- Adds the size of a node to its immediate dominator. -/
def fold (idoms : Slots) (sizes : Slots) (node : Nat) : Slots :=
  let idom := idoms.get node
  sizes.put idom (addUnits (sizes.get idom) (sizes.get node))

/-- The retained size of every node in units. -/
def compute (g : FlowGraph) (p : Postorder) (idoms : Slots) : Slots :=
  p.nodes.foldl (fold idoms) (own g p)

end Retained

end HeapRetention
