import HeapRetention.Graph.Record

/-!
The classes of a heap by number and by name.
-/

namespace HeapRetention

/-- The class with number `n` stands at index `n - 1`. -/
structure ClassTable where
  definitions : Array ClassDefinition := #[]
  deriving Repr, DecidableEq, Inhabited

namespace ClassTable

/-- Numbers the classes in the order of the list; the numbers they came with are dropped. -/
def ofList (classes : List ClassDefinition) : ClassTable where
  definitions := (classes.mapIdx fun i c => { c with id := i + 1 }).toArray

def size (t : ClassTable) : Nat :=
  t.definitions.size

def get? (t : ClassTable) (id : ClassId) : Option ClassDefinition :=
  if id = 0 then none else t.definitions[id - 1]?

/-- The class of a name; of several the last one. -/
def named? (t : ClassTable) (name : String) : Option ClassDefinition :=
  t.definitions.toList.reverse.find? (·.name == name)

/-- The classes in the order of their numbers. -/
def toList (t : ClassTable) : List ClassDefinition :=
  t.definitions.toList

def isArray (t : ClassTable) (id : ClassId) : Bool :=
  match t.get? id with
  | some c => c.isArray
  | none => false

end ClassTable

end HeapRetention
