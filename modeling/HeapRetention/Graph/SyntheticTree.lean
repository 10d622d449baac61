import HeapRetention.Graph.Record
import Std.Data.TreeMap

/-!
Edges that come from no field of any object: each parent has its children in the order they were added.
A sentinel object stands at the top; the traversal enters it only once the strong phases are done.
-/

namespace HeapRetention

structure SyntheticTree where
  sentinel : ObjectId := 0
  childrenOf : Std.TreeMap ObjectId (Array ObjectId) := ∅

namespace SyntheticTree

/-- Adds an edge at the end of its parent's children. An edge from or to no object is dropped. -/
def addChild (t : SyntheticTree) (parent child : ObjectId) : SyntheticTree :=
  if parent = 0 ∨ child = 0 then t
  else { t with childrenOf := t.childrenOf.alter parent fun cs? => some ((cs?.getD #[]).push child) }

/-- The children of an object, or `none` if it never got one. -/
def children? (t : SyntheticTree) (parent : ObjectId) : Option (List ObjectId) :=
  (t.childrenOf.get? parent).map Array.toList

def children (t : SyntheticTree) (parent : ObjectId) : List ObjectId :=
  (t.children? parent).getD []

def hasChildren (t : SyntheticTree) (parent : ObjectId) : Bool :=
  t.childrenOf.contains parent

/-- Whether some edge leads to the object. -/
def isChild (t : SyntheticTree) (id : ObjectId) : Bool :=
  t.childrenOf.any fun _ cs => cs.contains id

/-- The tree with the given edges, added in order. -/
def ofEdges (sentinel : ObjectId) (edges : List (ObjectId × ObjectId)) : SyntheticTree :=
  edges.foldl (fun t e => t.addChild e.1 e.2) { sentinel := sentinel }

/-- The number of edges. -/
def edgeCount (t : SyntheticTree) : Nat :=
  t.childrenOf.foldl (fun n _ cs => n + cs.size) 0

end SyntheticTree

/-- The tree that the records describe. -/
def SyntheticTreeData.tree (d : SyntheticTreeData) : SyntheticTree :=
  .ofEdges d.sentinel d.edges

end HeapRetention
