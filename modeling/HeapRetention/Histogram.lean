import HeapRetention.Failure
import HeapRetention.Graph.HeapGraph
import HeapRetention.Json.Value
import HeapRetention.Numbers

/-!
Histograms: instances and bytes of each class, most instances first. A `Tally` counts objects by class
number; merging adds two histograms up class by class.
-/

namespace HeapRetention

structure Counter where
  instances : Nat := 0
  bytes : Nat := 0
  deriving Repr, DecidableEq, Inhabited

/-- One more object; a full counter stays full. -/
def Counter.add (c : Counter) (size : Nat) : Counter where
  instances := min (c.instances + 1) longMax
  bytes := min (c.bytes + size) longMax

/-- Counters by class number, in the order the classes were first met. -/
structure Tally where
  counters : List (ClassId × Counter) := []
  deriving Repr, DecidableEq, Inhabited

/-- Changes the counter of a class, which starts at zero. -/
def Tally.bump (id : ClassId) (size : Nat) : List (ClassId × Counter) → List (ClassId × Counter)
  | [] => [(id, ({} : Counter).add size)]
  | (k, c) :: rest => if k = id then (k, c.add size) :: rest else (k, c) :: Tally.bump id size rest

/-- Counts one object. -/
def Tally.add (t : Tally) (id : ClassId) (size : Nat) : Tally :=
  ⟨Tally.bump id size t.counters⟩

structure HistogramEntry where
  className : String
  instances : Nat
  bytes : Nat
  deriving Repr, DecidableEq, Inhabited

structure Histogram where
  entries : List HistogramEntry := []
  instanceCount : Nat := 0
  bytesCount : Nat := 0
  deriving Repr, DecidableEq, Inhabited

/-- More instances come first, then more bytes, then the lesser name. -/
def HistogramEntry.before (a b : HistogramEntry) : Bool :=
  if a.instances ≠ b.instances then b.instances < a.instances
  else if a.bytes ≠ b.bytes then b.bytes < a.bytes
  else !(b.className < a.className)

namespace Histogram

/-- Sorts entries and adds them up; the totals have to fit 64 bits. -/
def ofEntries (entries : List HistogramEntry) : Except Crash Histogram :=
  let instances := total (entries.map (·.instances))
  let bytes := total (entries.map (·.bytes))
  if longMax < instances ∨ longMax < bytes then .error .overflow
  else .ok ⟨entries.mergeSort HistogramEntry.before, instances, bytes⟩

/-- The first entry of a class. -/
def entry? (h : Histogram) (className : String) : Option HistogramEntry :=
  h.entries.find? (·.className == className)

/-- Adds an entry to the one of its class. -/
def addEntry (e : HistogramEntry) : List HistogramEntry → List HistogramEntry
  | [] => [e]
  | f :: rest =>
    if f.className = e.className then
      { f with instances := f.instances + e.instances, bytes := f.bytes + e.bytes } :: rest
    else f :: addEntry e rest

/-- Adds two histograms up class by class. -/
def merge (a b : Histogram) : Except Crash Histogram :=
  ofEntries ((a.entries ++ b.entries).foldl (fun acc e => addEntry e acc) [])

def entryJson (e : HistogramEntry) : Json.Value :=
  .object [
    ("class_name", .string e.className),
    ("instances", .number e.instances),
    ("bytes", .number e.bytes)]

def toJson (h : Histogram) : Json.Value :=
  .object [
    ("bytes_count", .number h.bytesCount),
    ("entries", .ofList entryJson h.entries),
    ("instance_count", .number h.instanceCount)]

end Histogram

/-- The name a class number shows under. -/
def ClassTable.displayName (t : ClassTable) (id : ClassId) : String :=
  match t.get? id with
  | some c => c.name
  | none => "<unknown class " ++ toString id ++ ">"

/-- The histogram of the counted objects. -/
def Tally.histogram (t : Tally) (classes : ClassTable) : Except Crash Histogram :=
  Histogram.ofEntries (t.counters.map fun p => ⟨classes.displayName p.1, p.2.instances, p.2.bytes⟩)

/-- Counts every object of a heap, reachable or not. -/
def HeapGraph.tally (g : HeapGraph) : Tally :=
  g.objectIds.foldl (fun t id => t.add (g.classOf id) (g.sizeOf id)) {}

end HeapRetention
