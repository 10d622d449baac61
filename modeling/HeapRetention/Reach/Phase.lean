import HeapRetention.Graph.Record
import HeapRetention.Reach.Role

/-!
The phases of the traversal and the edges that wait for a later phase.
-/

namespace HeapRetention

/-- The stages of the traversal in order. Each one unlocks one more kind of postponed edge. -/
inductive Phase where
  | strongNonLocal
  | strongLocal
  | syntheticTree
  | soft
  | weak
  | cleanupReferences
  | finished
  deriving Repr, DecidableEq, Inhabited

namespace Phase

def rank : Phase → Nat
  | .strongNonLocal => 0
  | .strongLocal => 1
  | .syntheticTree => 2
  | .soft => 3
  | .weak => 4
  | .cleanupReferences => 5
  | .finished => 6

instance : LT Phase := ⟨fun p q => p.rank < q.rank⟩

instance : LE Phase := ⟨fun p q => p.rank ≤ q.rank⟩

instance (p q : Phase) : Decidable (p < q) := inferInstanceAs (Decidable (p.rank < q.rank))

instance (p q : Phase) : Decidable (p ≤ q) := inferInstanceAs (Decidable (p.rank ≤ q.rank))

/-- The phase after this one; the last one has no other. -/
def next : Phase → Phase
  | .strongNonLocal => .strongLocal
  | .strongLocal => .syntheticTree
  | .syntheticTree => .soft
  | .soft => .weak
  | .weak => .cleanupReferences
  | .cleanupReferences => .finished
  | .finished => .finished

/-- Objects met in these phases count as strongly reachable. -/
def isStrong (p : Phase) : Bool :=
  p ≤ .syntheticTree

end Phase

/-- Work postponed to a later phase. -/
inductive PendingEdge where
  /-- Claim the object as its own parent. -/
  | root (id : ObjectId)
  /-- Claim the referent for its holder. -/
  | referent (referent holder : ObjectId) (role : Role)
  /-- Visit an object that was passed over; unless it has a parent by then it becomes its own. -/
  | revisit (id : ObjectId)
  deriving Repr, DecidableEq

/-- One queue a phase, each with its latest edge first. -/
structure PhaseQueues where
  strongNonLocal : List PendingEdge := []
  strongLocal : List PendingEdge := []
  syntheticTree : List PendingEdge := []
  soft : List PendingEdge := []
  weak : List PendingEdge := []
  cleanupReferences : List PendingEdge := []
  finished : List PendingEdge := []
  deriving Repr, DecidableEq, Inhabited

namespace PhaseQueues

def latestFirst (q : PhaseQueues) : Phase → List PendingEdge
  | .strongNonLocal => q.strongNonLocal
  | .strongLocal => q.strongLocal
  | .syntheticTree => q.syntheticTree
  | .soft => q.soft
  | .weak => q.weak
  | .cleanupReferences => q.cleanupReferences
  | .finished => q.finished

def replace (q : PhaseQueues) (p : Phase) (edges : List PendingEdge) : PhaseQueues :=
  match p with
  | .strongNonLocal => { q with strongNonLocal := edges }
  | .strongLocal => { q with strongLocal := edges }
  | .syntheticTree => { q with syntheticTree := edges }
  | .soft => { q with soft := edges }
  | .weak => { q with weak := edges }
  | .cleanupReferences => { q with cleanupReferences := edges }
  | .finished => { q with finished := edges }

/-- The edges that wait for a phase, in the order they were postponed. -/
def pending (q : PhaseQueues) (p : Phase) : List PendingEdge :=
  (q.latestFirst p).reverse

/-- Postpones an edge until a phase begins. -/
def defer (q : PhaseQueues) (p : Phase) (edge : PendingEdge) : PhaseQueues :=
  q.replace p (edge :: q.latestFirst p)

/-- Leaves a phase: the next one, the edges that waited for it, and the queues without them. -/
def advance (q : PhaseQueues) (current : Phase) : Phase × List PendingEdge × PhaseQueues :=
  (current.next, q.pending current.next, q.replace current.next [])

def isEmpty (q : PhaseQueues) : Bool :=
  q.strongNonLocal.isEmpty && q.strongLocal.isEmpty && q.syntheticTree.isEmpty && q.soft.isEmpty &&
    q.weak.isEmpty && q.cleanupReferences.isEmpty && q.finished.isEmpty

@[simp]
theorem latestFirst_replace (q : PhaseQueues) (p r : Phase) (edges : List PendingEdge) :
    (q.replace p edges).latestFirst r = if r = p then edges else q.latestFirst r := by
  cases p <;> cases r <;> rfl

theorem pending_defer (q : PhaseQueues) (p r : Phase) (edge : PendingEdge) :
    (q.defer p edge).pending r = if r = p then q.pending p ++ [edge] else q.pending r := by
  simp only [pending, defer, latestFirst_replace]
  split <;> simp

theorem pending_advance (q : PhaseQueues) (current r : Phase) :
    (q.advance current).2.2.pending r = if r = current.next then [] else q.pending r := by
  simp only [advance, pending, latestFirst_replace]
  split <;> simp

end PhaseQueues

end HeapRetention
