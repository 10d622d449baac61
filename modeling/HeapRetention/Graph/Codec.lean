import HeapRetention.Graph.Record
import HeapRetention.Json.Reader
import HeapRetention.Json.Value

/-!
Heap graph records as JSON. Writing fills in every field but an absent referent or synthetic tree.
-/

namespace HeapRetention

open Json

namespace GcRoot

def fields : List (RecordField GcRoot) := [
  .make "id" true readWord32 fun r n => { r with id := n },
  .make "stack_frame" false readBoolean fun r b => { r with stackFrame := b }]

def reader : Reader GcRoot :=
  readRecord "GcRoot" fields ⟨0, false⟩

def toJson (r : GcRoot) : Value :=
  .object [("id", .number r.id), ("stack_frame", .boolean r.stackFrame)]

end GcRoot

namespace ClassDefinition

def fields : List (RecordField ClassDefinition) := [
  .make "id" false readWord32 fun c n => { c with id := n },
  .make "name" true readString fun c s => { c with name := s },
  .make "object_id" false readWord32 fun c n => { c with objectId := n },
  .make "static_fields" false (readList readWord32) fun c ids => { c with staticFields := ids },
  .make "constant_fields" false (readList readWord32) fun c ids => { c with constantFields := ids }]

def reader : Reader ClassDefinition :=
  readRecord "ClassDefinition" fields { name := "" }

def toJson (c : ClassDefinition) : Value :=
  .object [
    ("id", .number c.id),
    ("name", .string c.name),
    ("object_id", .number c.objectId),
    ("static_fields", .ofList .number c.staticFields),
    ("constant_fields", .ofList .number c.constantFields)]

end ClassDefinition

namespace ReferentStrength

def names : List (String × ReferentStrength) :=
  [("soft", .soft), ("weak", .weak)]

def reader : Reader ReferentStrength :=
  readChoice names

def toJson : ReferentStrength → Value
  | .soft => .string "soft"
  | .weak => .string "weak"

end ReferentStrength

namespace ReferentSlot

def fields : List (RecordField ReferentSlot) := [
  .make "strength" true ReferentStrength.reader fun r s => { r with strength := s },
  .make "slot" true readSize fun r n => { r with slot := n }]

def reader : Reader ReferentSlot :=
  readRecord "ReferentSlot" fields ⟨.soft, 0⟩

def toJson (r : ReferentSlot) : Value :=
  .object [("strength", r.strength.toJson), ("slot", .number r.slot)]

end ReferentSlot

namespace ObjectRecord

def fields : List (RecordField ObjectRecord) := [
  .make "class" true readWord32 fun o n => { o with classId := n },
  .make "size" true readWord32 fun o n => { o with size := n.toUInt32 },
  .make "references" false (readList readWord32) fun o ids => { o with references := ids },
  .make "referent" false (readOption ReferentSlot.reader) fun o r => { o with referent? := r }]

def reader : Reader ObjectRecord :=
  readRecord "ObjectRecord" fields { classId := 0, size := 0 }

def toJson (o : ObjectRecord) : Value :=
  .object ([
    ("class", .number o.classId),
    ("size", .number o.size.toNat),
    ("references", .ofList .number o.references)] ++
    o.referent?.toList.map fun r => ("referent", r.toJson))

end ObjectRecord

namespace SyntheticTreeData

def fields : List (RecordField SyntheticTreeData) := [
  .make "sentinel" false readWord32 fun t n => { t with sentinel := n },
  .make "edges" false (readList (readPair readWord32 readWord32)) fun t es => { t with edges := es }]

def reader : Reader SyntheticTreeData :=
  readRecord "SyntheticTreeData" fields {}

def toJson (t : SyntheticTreeData) : Value :=
  .object [
    ("sentinel", .number t.sentinel),
    ("edges", .ofList (fun e => .array [.number e.1, .number e.2]) t.edges)]

end SyntheticTreeData

namespace HeapGraphData

def fields : List (RecordField HeapGraphData) := [
  .make "classes" false (readList ClassDefinition.reader) fun g cs => { g with classes := cs },
  .make "objects" false (readList ObjectRecord.reader) fun g os => { g with objects := os },
  .make "roots" false (readList GcRoot.reader) fun g rs => { g with roots := rs },
  .make "synthetic_tree" false (readOption SyntheticTreeData.reader)
    fun g t => { g with syntheticTree? := t }]

def reader : Reader HeapGraphData :=
  readRecord "HeapGraphData" fields {}

def toJson (g : HeapGraphData) : Value :=
  .object ([
    ("classes", .ofList ClassDefinition.toJson g.classes),
    ("objects", .ofList ObjectRecord.toJson g.objects),
    ("roots", .ofList GcRoot.toJson g.roots)] ++
    g.syntheticTree?.toList.map fun t => ("synthetic_tree", t.toJson))

/-- Reads a graph from a JSON text. -/
def ofText (text : String) : Except ReadError HeapGraphData :=
  readDocument reader text

end HeapGraphData

end HeapRetention
