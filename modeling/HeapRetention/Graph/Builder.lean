import HeapRetention.Failure
import HeapRetention.Graph.Record

/-!
Building the records of a heap graph step by step. A step that names an object or a class that is not
there yet crashes and leaves the records as they were.
-/

namespace HeapRetention.HeapGraphData

/-- The number of the class of a name; it is added unless it is there already. -/
def addClass (d : HeapGraphData) (name : String) : ClassId × HeapGraphData :=
  match d.classes.findIdx? (·.name == name) with
  | some i => (i + 1, d)
  | none =>
    let id := d.classes.length + 1
    (id, { d with classes := d.classes ++ [{ id := id, name := name }] })

def addObject (d : HeapGraphData) (classId : ClassId) (size : UInt32) : ObjectId × HeapGraphData :=
  (d.objects.length + 1, { d with objects := d.objects ++ [{ classId := classId, size := size }] })

/-- The index of a number that starts at one, within a list of the given length. -/
def indexOf (id length : Nat) : Except Crash Nat :=
  if id = 0 then .error .overflow
  else if id ≤ length then .ok (id - 1)
  else .error (.indexOutOfBounds (id - 1) length)

def modifyObject (d : HeapGraphData) (id : ObjectId) (f : ObjectRecord → ObjectRecord) :
    Except Crash HeapGraphData := do
  let i ← indexOf id d.objects.length
  return { d with objects := d.objects.modify i f }

def addReference (d : HeapGraphData) (holder target : ObjectId) : Except Crash HeapGraphData :=
  d.modifyObject holder fun o => { o with references := o.references ++ [target] }

/-- Makes `holder` a soft or weak reference; its next slot holds the referent. -/
def addReferent (d : HeapGraphData) (holder target : ObjectId) (strength : ReferentStrength) :
    Except Crash HeapGraphData :=
  d.modifyObject holder fun o => { o with
    referent? := some ⟨strength, o.references.length⟩
    references := o.references ++ [target] }

def addRoot (d : HeapGraphData) (id : ObjectId) (stackFrame : Bool) : HeapGraphData :=
  { d with roots := d.roots ++ [⟨id, stackFrame⟩] }

def addStaticField (d : HeapGraphData) (classId : ClassId) (id : ObjectId) :
    Except Crash HeapGraphData := do
  let i ← indexOf classId d.classes.length
  return { d with
    classes := d.classes.modify i fun c => { c with staticFields := c.staticFields ++ [id] } }

/-- The first change to the synthetic tree creates it. -/
def modifyTree (d : HeapGraphData) (f : SyntheticTreeData → SyntheticTreeData) : HeapGraphData :=
  { d with syntheticTree? := some (f (d.syntheticTree?.getD {})) }

def setSentinel (d : HeapGraphData) (id : ObjectId) : HeapGraphData :=
  d.modifyTree fun t => { t with sentinel := id }

def addChild (d : HeapGraphData) (parent child : ObjectId) : HeapGraphData :=
  d.modifyTree fun t => { t with edges := t.edges ++ [(parent, child)] }

end HeapRetention.HeapGraphData
