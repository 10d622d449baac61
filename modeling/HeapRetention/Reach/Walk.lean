import HeapRetention.Text.Elapsed
import HeapRetention.Histogram
import HeapRetention.Progress
import HeapRetention.Reach.Phase
import HeapRetention.Reach.Run

/-!
One walk over a heap, wave by wave. A wave visits the objects of the frontier; whatever they claim is the
next frontier. When a frontier is empty the next phase begins and releases the edges that waited for it.
Every object has one parent and is visited at most once.
-/

namespace HeapRetention

/-- Instances of these classes keep objects alive for cleanup only, so they come last. -/
def cleanupClassNames : List String :=
  ["sun.misc.Cleaner", "java.lang.ref.Finalizer"]

/-- Numbers collected during a walk. -/
structure TraversalSummary where
  visitedInstances : Nat := 0
  strongVisited : Nat := 0
  nonStrongVisited : Nat := 0
  /-- Strongly reachable objects that claimed no other. -/
  leaves : Nat := 0
  /-- References of visited objects that are not null. -/
  edgeCount : Nat := 0
  finalizableBytes : Nat := 0
  softBytes : Nat := 0
  weakBytes : Nat := 0
  /-- Parents of the synthetic tree that were visited when only it could still reach them. -/
  syntheticOnly : List ObjectId := []
  elapsed : Elapsed := .unmeasured
  foldElapsed : Elapsed := .unmeasured
  deriving Repr, DecidableEq

/-- The surroundings of a walk, which do not change. -/
structure Terrain where
  graph : HeapGraph
  options : TraverseOptions
  /-- The synthetic tree, if its edges are followed. -/
  tree? : Option SyntheticTree
  /-- The classes of cleanup markers. -/
  cleanup : List ClassId

namespace Terrain

/-- What a run sees of a heap graph. -/
def of (graph : HeapGraph) (run : Run) : Terrain where
  graph := graph
  options := run.config.traverse
  tree? := if run.config.traverse.includeSyntheticTreeEdges then run.tree? else none
  cleanup := cleanupClassNames.filterMap graph.classNamed?

/-- The top of the synthetic tree, `0` if there is none. -/
def sentinel (t : Terrain) : ObjectId :=
  match t.tree? with
  | some tree => tree.sentinel
  | none => 0

def isCleanupMarker (t : Terrain) (id : ObjectId) : Bool :=
  t.cleanup.contains (t.graph.classOf id)

/-- Whether an object met in a phase is left for a later one: the sentinel before its phase, and cleanup
markers before theirs. -/
def passesOver (t : Terrain) (phase : Phase) (id : ObjectId) : Bool :=
  (id == t.sentinel && phase < .syntheticTree) || (phase < .cleanupReferences && t.isCleanupMarker id)

/-- The referent of a soft or weak reference that waits for a later phase than the given one, with that
phase and its role. -/
def postponedReferent? (t : Terrain) (phase : Phase) (id : ObjectId) :
    Option (Phase × ObjectId × Role) :=
  let soft := t.graph.referent .soft id
  let weak := t.graph.referent .weak id
  if soft ≠ 0 ∧ phase < .soft then some (.soft, soft, .softReference)
  else if weak ≠ 0 ∧ phase < .weak then some (.weak, weak, .weakReference)
  else none

/-- The reference slots that a visit in the given phase follows: slots that name no object of the run, or
hold a postponed referent, read as null. -/
def followedSlots (t : Terrain) (isValid : ObjectId → Bool) (phase : Phase) (id : ObjectId) :
    List ObjectId :=
  let slots := (t.graph.references id).map fun target => if isValid target then target else 0
  match t.postponedReferent? phase id, t.graph.referentSlot? id with
  | some _, some r => slots.set r.slot 0
  | _, _ => slots

/-- The children an object has in the synthetic tree. -/
def syntheticChildren? (t : Terrain) (id : ObjectId) : Option (List ObjectId) :=
  t.tree?.bind (·.children? id)

end Terrain

/-- The state of a walk. Lists that grow hold their latest element first. -/
structure Walk where
  run : Run
  phase : Phase := .strongNonLocal
  frontier : List ObjectId := []
  queues : PhaseQueues := {}
  roots : List ObjectId := []
  visitedCount : Nat := 0
  strong : Tally := {}
  nonStrong : Tally := {}
  /-- The visited instances of each nominated class. -/
  nominated : List (ClassId × List ObjectId) := []
  summary : TraversalSummary := {}
  crash? : Option Crash := none

/-- What an object claims: the claimed objects and the number of its references that are not null. -/
structure Claims where
  run : Run
  claimed : List ObjectId := []
  edges : Nat := 0

/-- Follows one reference of a holder. The first to follow a reference to an object becomes its parent. -/
def Claims.follow (holder : ObjectId) (isArray recordRoles : Bool) (fieldCount : Nat) (c : Claims)
    (target : ObjectId) (index : Nat) : Claims :=
  if target = 0 then c
  else if c.run.isUnclaimed target then
    let run := c.run.claim target holder
    { run := if recordRoles then run.recordRole target (.forSlot isArray index fieldCount) else run
      claimed := target :: c.claimed
      edges := c.edges + 1 }
  else { c with edges := c.edges + 1 }

/-- Follows references in order; `index` is the place of the first one. -/
def Claims.followAll (holder : ObjectId) (isArray recordRoles : Bool) (fieldCount : Nat) :
    Claims → List ObjectId → Nat → Claims
  | c, [], _ => c
  | c, target :: rest, index =>
    followAll holder isArray recordRoles fieldCount
      (c.follow holder isArray recordRoles fieldCount target index) rest (index + 1)

/-- Adds a visited object to the instances of its class, if that is nominated. -/
def noteNominated (classId : ClassId) (id : ObjectId) :
    List (ClassId × List ObjectId) → List (ClassId × List ObjectId)
  | [] => []
  | (k, ids) :: rest =>
    if k = classId then (k, id :: ids) :: rest else (k, ids) :: noteNominated classId id rest

/-- The summary after one more visit. -/
def TraversalSummary.count (s : TraversalSummary) (phase : Phase) (edges size : Nat) (isLeaf : Bool) :
    TraversalSummary :=
  let s := { s with visitedInstances := s.visitedInstances + 1, edgeCount := s.edgeCount + edges }
  if phase.isStrong then
    { s with strongVisited := s.strongVisited + 1, leaves := s.leaves + (if isLeaf then 1 else 0) }
  else
    let s := { s with nonStrongVisited := s.nonStrongVisited + 1 }
    match phase with
    | .soft => { s with softBytes := s.softBytes + size }
    | .weak => { s with weakBytes := s.weakBytes + size }
    | .cleanupReferences => { s with finalizableBytes := s.finalizableBytes + size }
    | _ => s

namespace Walk

/-- Passes an object over: a cleanup marker comes back in its own phase, unless only strong references
count. The sentinel already waits for its phase. -/
def passOver (t : Terrain) (w : Walk) (id : ObjectId) : Walk :=
  if id = t.sentinel ∧ w.phase < .syntheticTree then w
  else if t.options.onlyStrongReferences then w
  else { w with queues := w.queues.defer .cleanupReferences (.revisit id) }

/-- Postpones the referent of a soft or weak reference to its phase, unless only strong references
count. -/
def postpone (t : Terrain) (w : Walk) (id : ObjectId) : Walk :=
  match t.postponedReferent? w.phase id with
  | some (phase, referent, role) =>
    if !t.options.onlyStrongReferences && w.run.isValid referent then
      { w with queues := w.queues.defer phase (.referent referent id role) }
    else w
  | none => w

/-- Visits one object of the frontier. The objects it claims are added to `next`, the latest first. -/
def visit (t : Terrain) (w : Walk) (next : List ObjectId) (id : ObjectId) : Walk × List ObjectId :=
  let classId := t.graph.classOf id
  let size := t.graph.sizeOf id
  let slots := t.followedSlots w.run.isValid w.phase id
  let children? := t.syntheticChildren? id
  let { run, phase, frontier, queues, roots, visitedCount, strong, nonStrong, nominated, summary, crash? } :=
    w.postpone t id
  let summary :=
    if children?.isSome && Phase.syntheticTree ≤ phase then
      { summary with syntheticOnly := id :: summary.syntheticOnly }
    else summary
  let { run, claimed, edges } :=
    Claims.followAll id (t.graph.classes.isArray classId) t.options.includeFieldInformation slots.length
      { run } (slots ++ children?.getD []) 0
  ({
    run := run.recordVisit visitedCount id (sizeInUnits size)
    phase, frontier, queues, roots, crash?
    visitedCount := visitedCount + 1
    strong := if phase.isStrong then strong.add classId size else strong
    nonStrong := if phase.isStrong then nonStrong else nonStrong.add classId size
    nominated := noteNominated classId id nominated
    summary := summary.count phase edges size claimed.isEmpty }, claimed ++ next)

/-- Visits objects in order. It stops with a crash if the visit order has no room left. -/
def visitAll (t : Terrain) : Walk → List ObjectId → List ObjectId → Walk × List ObjectId
  | w, next, [] => (w, next)
  | w, next, id :: rest =>
    if t.passesOver w.phase id then visitAll t (w.passOver t id) next rest
    else if w.run.visited.capacity ≤ w.visitedCount then
      ({ w with crash? := some (.indexOutOfBounds w.visitedCount w.run.visited.capacity) }, next)
    else
      let (w, next) := w.visit t next id
      visitAll t w next rest

/-- Visits the whole frontier; what it claims is the next one. -/
def wave (t : Terrain) (w : Walk) : Walk :=
  let frontier := w.frontier
  let (w, next) := visitAll t { w with frontier := [] } [] frontier
  { w with frontier := next.reverse }

/-- Releases an edge whose phase has come. The objects that enter the frontier are added to `next`, the
latest first. -/
def release (t : Terrain) (w : Walk) (next : List ObjectId) : PendingEdge → Walk × List ObjectId
  | .root id =>
    if w.run.isUnclaimed id then ({ w with run := w.run.claim id id }, id :: next) else (w, next)
  | .referent referent holder role =>
    if w.run.isUnclaimed referent then
      let run := w.run.claim referent holder
      let run := if t.options.includeFieldInformation then run.recordRole referent role else run
      ({ w with run := run }, referent :: next)
    else (w, next)
  | .revisit id =>
    if !w.run.isValid id then (w, next)
    else if w.run.isUnclaimed id then
      ({ w with run := w.run.claim id id, roots := id :: w.roots }, id :: next)
    else (w, id :: next)

/-- Releases edges in order. -/
def releaseAll (t : Terrain) : Walk → List ObjectId → List PendingEdge → Walk × List ObjectId
  | w, next, [] => (w, next)
  | w, next, e :: es =>
    let (w, next) := w.release t next e
    releaseAll t w next es

/-- Enters the next phase. -/
def advance (t : Terrain) (w : Walk) : Walk :=
  let (phase, edges, queues) := w.queues.advance w.phase
  let (w, next) := releaseAll t { w with phase := phase, queues := queues } [] edges
  { w with frontier := next.reverse }

/-- Claims a root for itself and puts it on the frontier. -/
def claimRoot (w : Walk) (id : ObjectId) : Walk :=
  if w.run.isUnclaimed id then
    { w with run := w.run.claim id id, roots := id :: w.roots, frontier := id :: w.frontier }
  else w

/-- A root of the dump; one held by a stack frame waits for its phase. -/
def addRoot (w : Walk) (root : GcRoot) : Walk :=
  if root.stackFrame then
    if w.run.isValid root.id then
      { w with roots := root.id :: w.roots, queues := w.queues.defer .strongLocal (.root root.id) }
    else w
  else w.claimRoot root.id

/-- The walk before its first wave: the roots of the dump, whatever the classes hold, and the sentinel
waiting for its phase. -/
def start (t : Terrain) (run : Run) (nominated : List ClassId) : Walk :=
  let w : Walk := { run := run, nominated := nominated.map fun id => (id, []) }
  let w := t.graph.roots.foldl addRoot w
  let w := (t.graph.classes.toList.flatMap ClassDefinition.held).foldl claimRoot w
  let w := { w with frontier := w.frontier.reverse }
  if t.sentinel = 0 then w
  else { w with queues := w.queues.defer .syntheticTree (.revisit t.sentinel) }

/-- Whether the walk is done: every phase has passed and nothing is left to visit. -/
def isDone (w : Walk) : Bool :=
  w.frontier.isEmpty && w.phase = .finished

/-- One turn: a wave if the frontier has objects, else the next phase. -/
def turn (t : Terrain) (w : Walk) : Walk :=
  if w.frontier.isEmpty then w.advance t else w.wave t

/-- More turns than any walk takes: every object enters a frontier when it is claimed and at most once
more for each visit that is put off. -/
def turnLimit (run : Run) : Nat :=
  3 * run.objectCount + 16

end Walk

end HeapRetention
