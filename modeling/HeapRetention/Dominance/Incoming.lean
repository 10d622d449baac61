import HeapRetention.Dominance.Cards
import HeapRetention.Dominance.Postorder

/-!
The edges of the numbered graph, sorted by their ends: for every node its predecessors and the cards of
its successors.
-/

namespace HeapRetention

structure EdgeIndex where
  /-- The predecessors of a node, the largest first, one for each edge. -/
  predecessors : Array (List Nat)
  /-- The cards of the successors of a node in slot order. -/
  successorCards : Array (List Nat)

namespace EdgeIndex

def incoming (x : EdgeIndex) (node : Nat) : List Nat :=
  x.predecessors.getD node []

def cardsAfter (x : EdgeIndex) (node : Nat) : List Nat :=
  x.successorCards.getD node []

/-- An index without edges. -/
def empty (superRoot : Nat) : EdgeIndex where
  predecessors := Array.replicate (superRoot + 1) []
  successorCards := Array.replicate (superRoot + 1) []

/-- Adds the edges from a node to its successors. Nodes are added in ascending order. -/
def addNode (x : EdgeIndex) (cards : CardTable) (node : Nat) (successors : List Nat) : EdgeIndex :=
  { predecessors := successors.foldl (fun ps s => ps.modify s (node :: ·)) x.predecessors
    successorCards := x.successorCards.modify node fun _ => successors.map cards.cardOf }

/-- Adds the edges from all nodes. -/
def addNodes (g : FlowGraph) (p : Postorder) (cards : CardTable) : EdgeIndex → List Nat → Except Crash EdgeIndex
  | x, [] => .ok x
  | x, node :: rest =>
    match g.successors (p.objects.get node) with
    | .error c => .error c
    | .ok successors => addNodes g p cards (x.addNode cards node (successors.map p.numbers.get)) rest

/-- Adds the edges from the super root to the roots among the nodes. -/
def addRoots (x : EdgeIndex) (g : FlowGraph) (p : Postorder) : EdgeIndex :=
  let roots := g.roots.toArray
  { x with
    predecessors := p.nodes.foldl
      (fun ps node =>
        if FlowGraph.contains roots (p.objects.get node) then ps.modify node (p.superRoot :: ·) else ps)
      x.predecessors }

/-- The index of the numbered graph. -/
def ofGraph (g : FlowGraph) (p : Postorder) (cards : CardTable) : Except Crash EdgeIndex :=
  match addNodes g p cards (.empty p.superRoot) p.nodes with
  | .error c => .error c
  | .ok x => .ok (x.addRoots g p)

end EdgeIndex

end HeapRetention
