import HeapRetention.Graph.HeapGraph
import HeapRetention.Numbers
import HeapRetention.Options
import HeapRetention.Reach.Role
import HeapRetention.Store.Scratch

/-!
The lists of one analysis: for every object its parent, its size and how it was reached, and the order in
which objects were visited. The parents form a forest whose roots are their own parents.
-/

namespace HeapRetention

/-- A size in units of four bytes, at least one, so a visited object never has size zero. -/
def sizeInUnits (bytes : Nat) : Nat :=
  max 1 ((bytes + 3) / 4)

/-- Adds sizes in 32 bits; a full word stays full. -/
def addUnits (a b : Nat) : Nat :=
  min (a + b) wordMax

structure Run where
  config : AnalysisConfig
  objectCount : Nat
  /-- The object that first claimed an object, `0` if none did. -/
  parents : Slots
  /-- The size in units, `0` for objects never visited. -/
  sizes : Slots
  /-- The objects in the order of their visits. -/
  visited : Slots
  roles : Slots
  tree? : Option SyntheticTree := none

namespace Run

/-- The lists of a run over `count` objects, in the order they are asked for. -/
def requests (count : Nat) : List ListRequest := [
  { name := "parents", capacity := count + 2 },
  { name := "sizes", capacity := count + 2 },
  { name := "visited", capacity := count + 2 },
  { name := "refIndex", capacity := count + 2, width := .short }]

/-- A run before any traversal. -/
def create (config : AnalysisConfig) (count : Nat) (tree? : Option SyntheticTree) (space : ScratchSpace) :
    Except Failure Run :=
  match space.reserve (requests count) with
  | .error f => .error f
  | .ok () =>
    let blank := Slots.create (count + 2)
    .ok { config, objectCount := count, parents := blank, sizes := blank, visited := blank,
          roles := blank, tree? }

/-- Whether a number names an object of the heap. -/
def isValid (r : Run) (id : ObjectId) : Bool :=
  id != 0 && id ≤ r.objectCount

/-- The parent of an object, `none` if nothing claimed it. -/
def parent? (r : Run) (id : ObjectId) : Option ObjectId :=
  if r.isValid id && r.parents.get id != 0 then some (r.parents.get id) else none

/-- The size of an object: its own, or that of its subtree once sizes are folded. -/
def sizeUnits (r : Run) (id : ObjectId) : Nat :=
  if r.isValid id then r.sizes.get id else 0

def role? (r : Run) (id : ObjectId) : Option Role :=
  if r.isValid id then Role.decode? (r.roles.get id) else none

/-- The object that was visited at a place in the order. -/
def visitedAt (r : Run) (index : Nat) : Except Crash ObjectId :=
  r.visited.read index

/-- Whether the traversal visited an object. -/
def wasVisited (r : Run) (id : ObjectId) : Bool :=
  r.isValid id && r.sizes.get id != 0

/-- Whether an object can still be claimed. -/
def isUnclaimed (r : Run) (id : ObjectId) : Bool :=
  r.isValid id && r.parents.get id == 0

/-- Makes `parent` the parent of an unclaimed object. -/
def claim (r : Run) (id parent : ObjectId) : Run :=
  { r with parents := r.parents.put id parent }

def recordRole (r : Run) (id : ObjectId) (role : Role) : Run :=
  { r with roles := r.roles.put id role.encode }

/-- Enters a visit into the visit order, and the size of the visited object. -/
def recordVisit (r : Run) (index : Nat) (id : ObjectId) (units : Nat) : Run :=
  { r with visited := r.visited.put index id, sizes := r.sizes.put id units }

/-- The children that the synthetic tree of the run adds to an object, if the options include them. -/
def syntheticChildren? (r : Run) (id : ObjectId) : Option (List ObjectId) :=
  if r.config.traverse.includeSyntheticTreeEdges then r.tree?.bind (·.children? id) else none

/-- The objects of the heap in ascending order. -/
def objectIds (r : Run) : List ObjectId :=
  List.range' 1 r.objectCount

/-- The visit order up to `count`. -/
def visitOrder (r : Run) (count : Nat) : List ObjectId :=
  (List.range count).map r.visited.get

end Run

end HeapRetention
