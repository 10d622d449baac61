/-!
The records of a heap graph as a file holds them. Objects and classes are numbered from one in the order
of their lists; the number zero stands for no object.
-/

namespace HeapRetention

/-- The number of an object; `0` is no object. -/
abbrev ObjectId := Nat

/-- The number of a class. -/
abbrev ClassId := Nat

/-- A garbage collection root, held by a stack frame or otherwise. -/
structure GcRoot where
  id : ObjectId
  stackFrame : Bool := false
  deriving Repr, DecidableEq, Inhabited

structure ClassDefinition where
  id : ClassId := 0
  name : String
  /-- The object of the class itself, `0` if the dump has none. -/
  objectId : ObjectId := 0
  staticFields : List ObjectId := []
  constantFields : List ObjectId := []
  deriving Repr, DecidableEq, Inhabited

/-- Array classes are told by their names. -/
def ClassDefinition.isArray (c : ClassDefinition) : Bool :=
  c.name.toList.head? == some '[' || c.name.toList.reverse.take 2 == [']', '[']

/-- The name without the semicolons at its end, as a flame graph shows it. -/
def ClassDefinition.frameName (c : ClassDefinition) : String :=
  String.ofList (c.name.toList.reverse.dropWhile (· == ';')).reverse

/-- Whatever the class itself keeps alive. -/
def ClassDefinition.held (c : ClassDefinition) : List ObjectId :=
  c.objectId :: (c.staticFields ++ c.constantFields)

inductive ReferentStrength where
  | soft
  | weak
  deriving Repr, DecidableEq, Inhabited

/-- The slot of a soft or weak reference object that holds its referent. -/
structure ReferentSlot where
  strength : ReferentStrength
  slot : Nat
  deriving Repr, DecidableEq, Inhabited

structure ObjectRecord where
  classId : ClassId
  size : UInt32
  references : List ObjectId := []
  referent? : Option ReferentSlot := none
  deriving Repr, DecidableEq, Inhabited

/-- Parent and child pairs beneath a sentinel object. -/
structure SyntheticTreeData where
  sentinel : ObjectId := 0
  edges : List (ObjectId × ObjectId) := []
  deriving Repr, DecidableEq, Inhabited

structure HeapGraphData where
  classes : List ClassDefinition := []
  objects : List ObjectRecord := []
  roots : List GcRoot := []
  syntheticTree? : Option SyntheticTreeData := none
  deriving Repr, DecidableEq, Inhabited

end HeapRetention
