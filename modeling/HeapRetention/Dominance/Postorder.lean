import HeapRetention.Dominance.FlowGraph

/-!
Postorder numbers: a depth first search from the roots numbers an object once all of its successors have
been looked at. The first number is one; the number after the last stands for the super root.
-/

namespace HeapRetention

/-- The numbering of the objects that the search reached. -/
structure Postorder where
  /-- The object with a number. -/
  objects : Slots
  /-- The number of an object, `0` if it has none. -/
  numbers : Slots
  superRoot : Nat
  /-- The edges met by the search, those of the super root included. -/
  edgeCount : Nat
  /-- The largest number of nodes that were open at once. -/
  maxDepth : Nat

/-- A node whose successors are being looked at: their number and those that are left, the last one
first. -/
structure Frame where
  node : ObjectId
  width : Nat
  pending : List ObjectId

namespace Postorder

/-- The mark of an object that is still open. -/
def openMark : Nat :=
  wordMax

/-- The state of the search. The top frame comes first; the bottom one is the super root. -/
structure Search where
  objects : Slots
  numbers : Slots
  count : Nat := 0
  frames : List Frame
  depth : Nat := 1
  /-- The sum of the widths of all frames. -/
  entries : Nat
  edgeCount : Nat
  maxDepth : Nat := 0

namespace Search

/-- A search that has only opened the super root. -/
def start (g : FlowGraph) : Search where
  objects := .create (g.run.objectCount + 3)
  numbers := .create (g.run.objectCount + 3)
  frames := [⟨0, g.roots.length, g.roots.reverse⟩]
  entries := g.roots.length
  edgeCount := g.roots.length

/-- Opens an object. -/
def enter (s : Search) (id : ObjectId) (successors : List ObjectId) (below : List Frame) : Search :=
  { s with
    numbers := s.numbers.put id openMark
    frames := ⟨id, successors.length, successors.reverse⟩ :: below
    depth := s.depth + 1
    entries := s.entries + successors.length
    edgeCount := s.edgeCount + successors.length
    maxDepth := max s.maxDepth (s.depth + 1) }

/-- Gives the open object on top its number. -/
def leave (s : Search) (top : Frame) (below : List Frame) : Search :=
  { s with
    objects := s.objects.put (s.count + 1) top.node
    numbers := s.numbers.put top.node (s.count + 1)
    count := s.count + 1
    frames := below
    depth := s.depth - 1
    entries := s.entries - top.width }

/-- Whether the frames have no room for the successors of one more object. -/
def checkRoom (s : Search) (room added : Nat) : Except Failure Unit :=
  if room < s.entries + added then .error (.error (.capacityExceeded "childStack" room))
  else if wordMax < s.entries + added then .error (.crash .overflow)
  else .ok ()

/-- Goes on until only the super root is open and has no successor left. -/
def proceed (g : FlowGraph) (room : Nat) : Nat → Search → Except Failure Search
  | 0, _ => .error (.crash .stalled)
  | fuel + 1, s =>
    match s.frames with
    | [] => .ok s
    | top :: below =>
      match top.pending, below with
      | [], [] => .ok s
      | [], next :: others =>
        if wordMax < s.count + 2 then .error (.crash .overflow)
        else proceed g room fuel (s.leave top (next :: others))
      | id :: pending, _ =>
        let below := { top with pending } :: below
        if s.numbers.get id ≠ 0 then proceed g room fuel { s with frames := below }
        else
          match g.successors id with
          | .error c => .error (.crash c)
          | .ok successors =>
            match s.checkRoom room successors.length with
            | .error f => .error f
            | .ok () => proceed g room fuel (s.enter id successors below)

end Search

/-- Numbers the graph. The frames together have room for `room` successors. -/
def ofGraph (g : FlowGraph) (room : Nat) : Except Failure Postorder :=
  match Search.proceed g room (g.edgeBound + g.run.objectCount + 3) (.start g) with
  | .error f => .error f
  | .ok s => .ok ⟨s.objects, s.numbers, s.count + 1, s.edgeCount, s.maxDepth⟩

/-- The numbers of all objects in ascending order. -/
def nodes (p : Postorder) : List Nat :=
  List.range' 1 (p.superRoot - 1)

end Postorder

end HeapRetention
