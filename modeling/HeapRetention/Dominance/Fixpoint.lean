import HeapRetention.Dominance.Incoming

/-!
Immediate dominators by passes over the nodes, the largest first. A pass recomputes every node on a dirty
card from its predecessors; a change makes the cards of the successors dirty. The passes end when nothing
changes any more, or at a limit.
-/

namespace HeapRetention

/-- What one pass did. -/
structure PassCounts where
  /-- Nodes recomputed. -/
  updates : Nat := 0
  /-- Nodes whose immediate dominator changed. -/
  changed : Nat := 0
  intersections : Nat := 0
  /-- Nodes passed over because their card was clean. -/
  saved : Nat := 0
  /-- Predecessors passed over because the super root was met. -/
  skipped : Nat := 0
  deriving Repr, DecidableEq

/-- The immediate dominators known so far, `0` where none is, the dirty cards, and the counts of the
pass that is under way. -/
structure Fixpoint where
  idoms : Slots
  cards : CardTable
  counts : PassCounts := {}

/-- The nearest node on the chains of both nodes. A chain that reaches an unknown dominator counts for
nothing. The larger of two nodes never lies below the smaller one, so the smaller one climbs. -/
def nearestCommon (idoms : Slots) : (fuel a b : Nat) → Nat
  | 0, a, _ => a
  | fuel + 1, a, b =>
    if a = b then a
    else if a < b then if a = 0 then b else nearestCommon idoms fuel (idoms.get a) b
    else if b = 0 then a
    else nearestCommon idoms fuel a (idoms.get b)

/-- The node where the chains of `a` and `b` meet below or at the super root. -/
def intersect (idoms : Slots) (superRoot a b : Nat) : Nat :=
  nearestCommon idoms (2 * superRoot + 4) a b

/-- What a node's predecessors say about its immediate dominator. -/
structure Meeting where
  idom : Nat
  intersections : Nat
  skipped : Nat

/-- Takes in the predecessors that are left, from the largest on, and stops at the super root. -/
def Meeting.join (idoms : Slots) (superRoot : Nat) : Meeting → List Nat → Meeting
  | m, [] => m
  | m, p :: rest =>
    if p = 0 then m
    else
      let found := intersect idoms superRoot m.idom p
      let idom := if found = 0 then m.idom else found
      if idom = superRoot then ⟨idom, m.intersections + 1, m.skipped + rest.length⟩
      else join idoms superRoot ⟨idom, m.intersections + 1, m.skipped⟩ rest

namespace Fixpoint

/-- Nothing is known but the super root, and every card is dirty. -/
def start (superRoot : Nat) : Fixpoint where
  idoms := (Slots.create (superRoot + 1)).put superRoot superRoot
  cards := .covering superRoot

/-- Recomputes a node. -/
def update (x : EdgeIndex) (superRoot : Nat) (f : Fixpoint) (node : Nat) : Fixpoint :=
  let { idoms, cards, counts } := f
  let counts := { counts with updates := counts.updates + 1 }
  match x.incoming node with
  | [] => ⟨idoms, cards, counts⟩
  | p :: rest =>
    let m := Meeting.join idoms superRoot ⟨p, 0, 0⟩ rest
    let counts := { counts with
      intersections := counts.intersections + m.intersections
      skipped := counts.skipped + m.skipped }
    if m.idom = idoms.get node then ⟨idoms, cards, counts⟩
    else ⟨idoms.put node m.idom, (x.cardsAfter node).foldl CardTable.mark cards,
          { counts with changed := counts.changed + 1 }⟩

/-- Recomputes a node unless it is none or its immediate dominator is the super root. -/
def visit (x : EdgeIndex) (superRoot : Nat) (f : Fixpoint) (node : Nat) : Fixpoint :=
  if node = 0 ∨ superRoot ≤ node ∨ f.idoms.get node = superRoot then f else f.update x superRoot node

/-- Visits `size` nodes from `base` on, the largest first. -/
def visitRange (x : EdgeIndex) (superRoot base : Nat) : (size : Nat) → Fixpoint → Fixpoint
  | 0, f => f
  | size + 1, f => visitRange x superRoot base size (f.visit x superRoot (base + size))

/-- Passes over nodes on clean cards. -/
def save (f : Fixpoint) (nodes : Nat) : Fixpoint :=
  { f with counts := { f.counts with saved := f.counts.saved + nodes } }

/-- Cleans a card and visits its nodes. -/
def visitCard (x : EdgeIndex) (superRoot : Nat) (f : Fixpoint) (card : Nat) : Fixpoint :=
  let size := f.cards.cardSize
  visitRange x superRoot (card * size) size { f with cards := f.cards.clear card }

/-- Visits the cards whose bits are among the lowest `bits` of a chunk, the largest first. The chunk is
as it was when its turn came. -/
def visitChunk (x : EdgeIndex) (superRoot index : Nat) (chunk : UInt64) : (bits : Nat) → Fixpoint → Fixpoint
  | 0, f => f
  | bits + 1, f =>
    visitChunk x superRoot index chunk bits
      (if chunk &&& CardTable.bit bits = 0 then f.save f.cards.cardSize
       else f.visitCard x superRoot (index * 64 + bits))

/-- Visits the first `chunks` chunks, the last one first. -/
def visitChunks (x : EdgeIndex) (superRoot : Nat) : (chunks : Nat) → Fixpoint → Fixpoint
  | 0, f => f
  | index + 1, f =>
    let chunk := f.cards.chunk index
    visitChunks x superRoot index
      (if chunk = 0 then f.save (f.cards.cardSize * 64) else visitChunk x superRoot index chunk 64 f)

/-- One pass over all dirty cards. -/
def pass (x : EdgeIndex) (superRoot : Nat) (f : Fixpoint) : Fixpoint :=
  visitChunks x superRoot f.cards.chunks.size { f with counts := {} }

/-- Passes until one changes nothing, `limit` at most; the counts of each pass, the first one first. -/
def solve (x : EdgeIndex) (superRoot : Nat) : (limit : Nat) → Fixpoint → Fixpoint × List PassCounts
  | 0, f => (f, [])
  | limit + 1, f =>
    let f := f.pass x superRoot
    let counts := f.counts
    if counts.changed = 0 then (f, [counts])
    else
      let (f, rest) := solve x superRoot limit f
      (f, counts :: rest)

end Fixpoint

end HeapRetention
