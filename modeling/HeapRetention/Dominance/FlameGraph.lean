import HeapRetention.Dominance.Retained
import HeapRetention.Numbers

/-!
The dominator tree as folded stacks: a line names the classes from the outermost dominator down to a
node and ends with the bytes that no line below it accounts for. Small and deep nodes are left out.
-/

namespace HeapRetention

/-- A line of the flame graph: the frames from a node up to its outermost dominator. -/
structure FlameLine where
  frames : List String
  bytes : Nat
  deriving Repr, DecidableEq

namespace FlameLine

/-- A path one frame longer; the empty path has no separator. -/
def extend (path label : String) : String :=
  if path.isEmpty then label else path ++ ";" ++ label

/-- The frames from the outermost one down. -/
def path (l : FlameLine) : String :=
  l.frames.foldr (fun label path => extend path label) ""

def text (l : FlameLine) : String :=
  l.path ++ " " ++ toString l.bytes

end FlameLine

/-- The part of a dominator tree that is large enough to show. -/
structure FlameGraph where
  retained : Slots
  /-- The nodes below each node in ascending order. -/
  below : Array (List Nat)
  /-- The frame names of the nodes. -/
  label : Nat → String

namespace FlameGraph

/-- The name of an object's class as a frame shows it. -/
def frameName (graph : HeapGraph) (id : ObjectId) : String :=
  match graph.classes.get? (graph.classOf id) with
  | some c => c.frameName
  | none => "<unknown>"

/-- The nodes that retain at least `minBytes`, under their immediate dominators. -/
def kept (p : Postorder) (idoms retained : Slots) (minBytes : Nat) : Array (List Nat) :=
  (p.nodes.filter fun node => minBytes ≤ retained.get node * 4).foldr
    (fun node below => below.modify (idoms.get node) (node :: ·)) (Array.replicate (p.superRoot + 1) [])

def ofTree (graph : HeapGraph) (p : Postorder) (idoms retained : Slots) (minBytes : Nat) : FlameGraph where
  retained := retained
  below := kept p idoms retained minBytes
  label := fun node => frameName graph (p.objects.get node)

/-- The nodes right below a node. -/
def nodesBelow (f : FlameGraph) (node : Nat) : List Nat :=
  f.below.getD node []

/-- The units of a node that no line below it shows; `levels` is the number of levels left below it. -/
def ownUnits (f : FlameGraph) (levels node : Nat) : Nat :=
  if levels = 0 then f.retained.get node
  else f.retained.get node - total ((f.nodesBelow node).map f.retained.get)

/-- The line of a node under the frames of its dominators. -/
def line (f : FlameGraph) (levels : Nat) (frames : List String) (node : Nat) : FlameLine :=
  ⟨f.label node :: frames, f.ownUnits levels node * 4⟩

/-- The lines of all nodes below a node, down to a number of levels, in front of others. Larger nodes come
first, and a line follows those below it. -/
def linesBelow (f : FlameGraph) :
    (levels : Nat) → (frames : List String) → (node : Nat) → (tail : List FlameLine) → List FlameLine
  | 0, _, _, tail => tail
  | levels + 1, frames, node, tail =>
    ((f.nodesBelow node).mergeSort (largerFirst f.retained.get)).foldr
      (fun child tail =>
        linesBelow f levels (f.label child :: frames) child (f.line levels frames child :: tail)) tail

/-- All lines of the tree, `levels` deep. -/
def lines (f : FlameGraph) (levels superRoot : Nat) : List FlameLine :=
  f.linesBelow levels [] superRoot []

end FlameGraph

end HeapRetention
