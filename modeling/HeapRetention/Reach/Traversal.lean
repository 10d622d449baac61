import HeapRetention.Reach.Walk

/-!
The traversal of a heap: turns of a walk until it is done, and what they found. A traversal that stops
early still leaves its marks in the run.
-/

namespace HeapRetention

/-- What a traversal found. The lists by object stay in the run. -/
structure Traversal where
  visitedCount : Nat
  /-- The roots of the dump and of its classes that can be claimed, in ascending order. -/
  roots : List ObjectId
  strong : Histogram
  nonStrong : Histogram
  /-- The visited instances of each nominated class in ascending order, by the name of the class. -/
  nominated : List (String × List ObjectId)
  summary : TraversalSummary
  deriving Repr, DecidableEq

/-- How a traversal ended: the run as it left it, what it said, and its result. -/
structure TraversalAttempt where
  run : Run
  journal : Journal
  result : Except Failure Traversal

/-- Numbers in ascending order without repetitions. -/
def ascending (ids : List Nat) : List Nat :=
  (ids.mergeSort fun a b => a ≤ b).foldr (fun a rest => if rest.head? = some a then rest else a :: rest) []

/-- The quotient of two numbers. -/
def ratio (a b : Nat) : Float :=
  a.toUInt64.toFloat / b.toUInt64.toFloat

/-- The nominated classes that the heap has, in order, and the names that it lacks. -/
def nominations (graph : HeapGraph) (names : List String) : List ClassId × List String :=
  ((names.filterMap graph.classNamed?).eraseDups, names.filter fun name => (graph.classNamed? name).isNone)

namespace Walk

/-- Takes turns until the walk is done. After every wave the caller learns how far the walk is and may
stop it. -/
def proceed (t : Terrain) (slices : List Slice) : Nat → Walk → Journal → Walk × Journal × Option Failure
  | 0, w, j => (w, j, some (.crash .stalled))
  | fuel + 1, w, j =>
    if w.isDone then (w, j, none)
    else if w.frontier.isEmpty then proceed t slices fuel (w.turn t) j
    else
      let w := w.turn t
      match w.crash? with
      | some c => (w, j, some (.crash c))
      | none =>
        let (stop, j) :=
          (j.fraction slices (ratio w.summary.visitedInstances (max t.graph.objectCount 1))).poll
        if stop then (w, j, some (.error .canceled)) else proceed t slices fuel w j

/-- The line that the log gets at the end of a walk. -/
def logLine (w : Walk) : String :=
  "traversal visited " ++ toString w.summary.visitedInstances ++ " instances (" ++
    toString w.summary.strongVisited ++ " strong, " ++ toString w.summary.edgeCount ++ " edges) in " ++
    w.summary.elapsed.text

/-- What a walk that is done has found. -/
def traversal (w : Walk) (classes : ClassTable) : Except Crash Traversal := do
  let strong ← w.strong.histogram classes
  let nonStrong ← w.nonStrong.histogram classes
  return {
    visitedCount := w.visitedCount
    roots := ascending w.roots
    strong
    nonStrong
    nominated := w.nominated.filterMap fun p => (classes.get? p.1).map fun c => (c.name, ascending p.2)
    summary := { w.summary with syntheticOnly := w.summary.syntheticOnly.reverse } }

end Walk

/-- Walks everything that the roots of the heap reach. Sizes are those of the objects themselves; they
are folded later. -/
def Run.traverse (run : Run) (graph : HeapGraph) (slices : List Slice) (journal : Journal) :
    TraversalAttempt :=
  let t := Terrain.of graph run
  let (nominated, missing) := nominations graph run.config.perClass.classNames
  let fuel := Walk.turnLimit run
  let journal := missing.foldl
    (fun j name => j.log .warn ("nominated class \x60" ++ name ++ "\x60 does not exist in this heap")) journal
  let journal := (journal.stage "Collect all object roots").stage "Traversing instance graph"
  let (w, journal, failure?) := (Walk.start t run nominated).proceed t slices fuel journal
  match failure? with
  | some failure => ⟨w.run, journal, .error failure⟩
  | none =>
    if !w.queues.isEmpty then ⟨w.run, journal, .error (.crash .leftovers)⟩
    else
      ⟨w.run, journal.log .info w.logLine, (w.traversal graph.classes).mapError .crash⟩

/-- Adds the folded size of an object to its parent. -/
def Run.foldSize (r : Run) (id : ObjectId) : Run :=
  let parent := r.parents.get id
  if parent = id ∨ parent = 0 then r
  else { r with sizes := r.sizes.put parent (addUnits (r.sizes.get parent) (r.sizes.get id)) }

/-- Turns the sizes of the first `count` visited objects into those of their subtrees. Children come
after their parents in the visit order, so each one is complete before it is added. -/
def Run.foldSizes (r : Run) (count : Nat) : Run :=
  (r.visitOrder count).reverse.foldl Run.foldSize r

end HeapRetention
