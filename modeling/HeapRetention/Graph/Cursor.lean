import HeapRetention.Graph.HeapGraph

/-!
A cursor over the objects of a heap graph: it stands on one object and shows either all of its references
or only the strong ones.
-/

namespace HeapRetention

/-- A new cursor stands on no object. -/
structure Cursor where
  graph : HeapGraph
  position : ObjectId := 0
  onlyStrong : Bool := false

namespace Cursor

def goTo (c : Cursor) (id : ObjectId) (onlyStrong : Bool) : Cursor :=
  { c with position := id, onlyStrong := onlyStrong }

def classId (c : Cursor) : ClassId :=
  c.graph.classOf c.position

def size (c : Cursor) : Nat :=
  c.graph.sizeOf c.position

def references (c : Cursor) : List ObjectId :=
  if c.onlyStrong then c.graph.strongReferences c.position else c.graph.references c.position

def softReferent (c : Cursor) : ObjectId :=
  c.graph.referent .soft c.position

def weakReferent (c : Cursor) : ObjectId :=
  c.graph.referent .weak c.position

/-- The index of the referent slot, `0` for an object without one. -/
def referentIndex (c : Cursor) : Nat :=
  match c.graph.referentSlot? c.position with
  | some r => r.slot
  | none => 0

/-- Looks up the class of an object by moving to it. -/
def visitClass (c : Cursor) (id : ObjectId) : ClassId × Cursor :=
  let c := c.goTo id false
  (c.classId, c)

/-- Takes the synthetic tree out of the graph. -/
def takeTree (c : Cursor) : Option SyntheticTree × Cursor :=
  (c.graph.tree?, { c with graph := { c.graph with tree? := none } })

end Cursor

end HeapRetention
