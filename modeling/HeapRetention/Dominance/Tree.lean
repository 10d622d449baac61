import HeapRetention.Dominance.FlameGraph
import HeapRetention.Dominance.Stats

/-!
The dominator tree of the strongly reachable objects. Nodes are numbered from one; the super root has the
largest number and stands for no object.
-/

namespace HeapRetention

structure DominatorTree where
  superRoot : Nat
  /-- The object of a node. -/
  objects : Slots
  /-- The node of an object. -/
  numbers : Slots
  idoms : Slots
  /-- Retained sizes in units. -/
  retained : Slots
  flameGraph : String
  stats : DominatorStats

namespace DominatorTree

/-- The number of nodes that are objects. -/
def nodeCount (t : DominatorTree) : Nat :=
  t.superRoot - 1

def objectAt? (t : DominatorTree) (node : Nat) : Option ObjectId :=
  if node ≠ 0 ∧ node < t.superRoot then some (t.objects.get node) else none

/-- The node of an object, `none` for objects that are not strongly reachable. -/
def node? (t : DominatorTree) (id : ObjectId) : Option Nat :=
  let node := t.numbers.get id
  if id ≠ 0 ∧ node ≠ 0 ∧ node < t.superRoot then some node else none

def immediateDominator? (t : DominatorTree) (node : Nat) : Option Nat :=
  if node ≠ 0 ∧ node ≤ t.superRoot then some (t.idoms.get node) else none

/-- The object that immediately dominates another, `none` if only the super root does. -/
def dominatorOf? (t : DominatorTree) (id : ObjectId) : Option ObjectId :=
  ((t.node? id).bind t.immediateDominator?).bind t.objectAt?

def retainedUnits (t : DominatorTree) (node : Nat) : Nat :=
  if node ≤ t.superRoot then t.retained.get node else 0

def retainedBytesOf? (t : DominatorTree) (id : ObjectId) : Option Nat :=
  (t.node? id).map fun node => t.retainedUnits node * 4

end DominatorTree

end HeapRetention
