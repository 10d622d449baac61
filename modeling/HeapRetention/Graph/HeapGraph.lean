import HeapRetention.Failure
import HeapRetention.Graph.ClassTable
import HeapRetention.Graph.SyntheticTree
import HeapRetention.Numbers

/-!
A heap graph: classes, objects, roots and the optional synthetic tree. A number that names no object
describes an empty object of class zero.
-/

namespace HeapRetention

structure HeapGraph where
  classes : ClassTable := {}
  /-- The object with number `n` stands at index `n - 1`. -/
  objects : Array ObjectRecord := #[]
  roots : List GcRoot := []
  tree? : Option SyntheticTree := none
  /-- The numbers of objects are words of 32 bits. -/
  objects_le : objects.size ≤ wordMax := by decide

namespace HeapGraph

/-- The first object, by its number, whose class is not among `classCount` classes. -/
def firstOrphan? (classCount : Nat) (objects : List ObjectRecord) : Option (ObjectId × ClassId) :=
  (objects.mapIdx fun i o => (i + 1, o.classId)).find? fun p => p.2 == 0 || classCount < p.2

/-- The graph of the records. Every object has to belong to one of the classes. -/
def ofData (d : HeapGraphData) : Except AnalysisError HeapGraph :=
  if h : wordMax < d.objects.length ∨ wordMax < d.classes.length then
    .error (.invalidGraph "too many objects or classes")
  else
    match firstOrphan? d.classes.length d.objects with
    | some (id, classId) =>
      .error (.invalidGraph ("object " ++ toString id ++ " refers to unknown class " ++ toString classId))
    | none =>
      .ok {
        classes := .ofList d.classes
        objects := d.objects.toArray
        roots := d.roots
        tree? := d.syntheticTree?.map SyntheticTreeData.tree
        objects_le := by
          rw [List.size_toArray]
          omega }

def objectCount (g : HeapGraph) : Nat :=
  g.objects.size

def record? (g : HeapGraph) (id : ObjectId) : Option ObjectRecord :=
  if id = 0 then none else g.objects[id - 1]?

def classOf (g : HeapGraph) (id : ObjectId) : ClassId :=
  match g.record? id with
  | some r => r.classId
  | none => 0

/-- The size of an object in bytes. -/
def sizeOf (g : HeapGraph) (id : ObjectId) : Nat :=
  match g.record? id with
  | some r => r.size.toNat
  | none => 0

theorem sizeOf_le (g : HeapGraph) (id : ObjectId) : g.sizeOf id ≤ wordMax := by
  unfold sizeOf
  split
  · next r _ => exact Nat.le_of_lt_succ r.size.toNat_lt
  · exact Nat.zero_le _

/-- All reference slots of an object, `0` standing for null. -/
def references (g : HeapGraph) (id : ObjectId) : List ObjectId :=
  match g.record? id with
  | some r => r.references
  | none => []

def referentSlot? (g : HeapGraph) (id : ObjectId) : Option ReferentSlot :=
  (g.record? id).bind (·.referent?)

/-- The reference slots, with the referent of a soft or weak reference object read as null. -/
def strongReferences (g : HeapGraph) (id : ObjectId) : List ObjectId :=
  match g.referentSlot? id with
  | some r => (g.references id).set r.slot 0
  | none => g.references id

/-- The referent of a reference object of the given strength, `0` if there is none. -/
def referent (g : HeapGraph) (strength : ReferentStrength) (id : ObjectId) : ObjectId :=
  match g.referentSlot? id with
  | some r => if r.strength = strength then (g.references id)[r.slot]?.getD 0 else 0
  | none => 0

/-- The number of the class that a name stands for. -/
def classNamed? (g : HeapGraph) (name : String) : Option ClassId :=
  (g.classes.named? name).map (·.id)

/-- The name of the class of an object. -/
def className? (g : HeapGraph) (id : ObjectId) : Option String :=
  (g.classes.get? (g.classOf id)).map (·.name)

/-- The numbers of all objects in ascending order. -/
def objectIds (g : HeapGraph) : List ObjectId :=
  List.range' 1 g.objectCount

end HeapGraph

/-- A heap dump as it is read: a graph whose reader may break on the strong references of some objects,
with or without a message. -/
structure Snapshot where
  graph : HeapGraph
  breaksAt : ObjectId → Option Crash := fun _ => none

/-- The strong references of an object, unless the reader breaks on it. -/
def Snapshot.strongReferences (s : Snapshot) (id : ObjectId) : Except Crash (List ObjectId) :=
  match s.breaksAt id with
  | some c => .error c
  | none => .ok (s.graph.strongReferences id)

end HeapRetention
