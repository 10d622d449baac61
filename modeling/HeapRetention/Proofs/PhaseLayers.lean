import HeapRetention.Proofs.WalkRun
import Mathlib.Data.List.Nodup
import Mathlib.Data.List.Pairwise

/-! The order of visits, phase by phase. Each phase adds to it exactly what it reaches and the phase before
it does not, and nothing comes twice. -/
namespace HeapRetention

namespace Phase
variable {segment : Phase → List ObjectId} {P Q : Phase} {id : ObjectId}

end Phase

variable {t : Terrain} {graph : HeapGraph} {fresh run : Run} {traversal : Traversal} {w : Walk}
  {segment : Phase → List ObjectId} {held : List ObjectId} {P : Phase} {id : ObjectId}

namespace Walk

/-- What the segments have up to a phase, once the walk is over. -/
theorem Inv.mem_upTo_iff (h : Inv t fresh w segment [] held) (hend : w.phase = .finished)
    (hP : P ≠ .finished) :
    (∃ R, R ≤ P ∧ id ∈ segment R) ↔ t.Reach fresh.objectCount P id := by
  refine h.layers P ?_ id
  rw [hend]
  rcases Phase.lt_or_eq (Phase.le_finished P) with hlt | heq
  · exact hlt
  · exact absurd heq hP

theorem Inv.nodup_gather {opened : List ObjectId} (h : Inv t fresh w segment opened held) :
    (Phase.gather segment).Nodup :=
  (List.nodup_append.mp h.ledger.nodup).1

/-- The visited objects are those that have a size, and it is their own. -/
theorem Inv.wasVisited_iff {opened : List ObjectId} (h : Inv t fresh w segment opened held) :
    w.run.wasVisited id = true ↔ id ∈ Phase.gather segment := by
  unfold Run.wasVisited
  rw [Bool.and_eq_true, bne_iff_ne, h.visits.sizes]
  constructor
  · rintro ⟨-, hne⟩
    by_contra hnot
    exact hne (if_neg hnot)
  · intro hid
    rw [if_pos hid]
    refine ⟨(h.ledger.claimed id (List.mem_append_left _ hid)).1, ?_⟩
    unfold sizeInUnits
    omega

theorem Inv.sizeUnits_eq {opened : List ObjectId} (h : Inv t fresh w segment opened held)
    (hid : w.run.wasVisited id = true) : w.run.sizeUnits id = sizeInUnits (t.graph.sizeOf id) := by
  have hmem := h.wasVisited_iff.mp hid
  unfold Run.sizeUnits
  rw [if_pos (h.ledger.claimed id (List.mem_append_left _ hmem)).1, h.visits.sizes, if_pos hmem]

theorem traversal_eq {classes : ClassTable} (h : w.traversal classes = .ok traversal) :
    traversal.visitedCount = w.visitedCount ∧ traversal.roots = ascending w.roots ∧
      w.strong.histogram classes = .ok traversal.strong ∧
      traversal.summary.strongVisited = w.summary.strongVisited := by
  unfold Walk.traversal at h
  cases hs : w.strong.histogram classes with
  | error c =>
    rw [hs] at h
    cases h
  | ok strong =>
    cases hn : w.nonStrong.histogram classes with
    | error c =>
      rw [hs, hn] at h
      cases h
    | ok nonStrong =>
      rw [hs, hn] at h
      cases h
      exact ⟨rfl, rfl, rfl, rfl⟩

theorem nonStrong_of_traversal {classes : ClassTable} (h : w.traversal classes = .ok traversal) :
    w.nonStrong.histogram classes = .ok traversal.nonStrong ∧
      traversal.summary = { w.summary with syntheticOnly := w.summary.syntheticOnly.reverse } := by
  unfold Walk.traversal at h
  cases hs : w.strong.histogram classes with
  | error c =>
    rw [hs] at h
    cases h
  | ok strong =>
    cases hn : w.nonStrong.histogram classes with
    | error c =>
      rw [hs, hn] at h
      cases h
    | ok nonStrong =>
      rw [hs, hn] at h
      cases h
      exact ⟨rfl, rfl⟩

end Walk

/-- A heap with an object for each phase: a root and a soft reference, a stack root, the sentinel and its
child, the soft and the weak referent, and a cleanup marker that the root holds. -/
def layeredHeap : HeapGraph where
  classes := .ofList [{ name := "sun.misc.Cleaner" }, { name := "Node" }]
  objects := #[
    { classId := 2, size := 8, references := [2, 4] },
    { classId := 2, size := 8, references := [3, 4], referent? := some ⟨.soft, 0⟩ },
    { classId := 2, size := 8 },
    { classId := 1, size := 8, references := [5] },
    { classId := 2, size := 8 },
    { classId := 2, size := 8 },
    { classId := 2, size := 8 },
    { classId := 2, size := 8, references := [9], referent? := some ⟨.weak, 0⟩ },
    { classId := 2, size := 8 }]
  roots := [{ id := 6, stackFrame := true }, { id := 1 }]
  tree? := some (.ofEdges 7 [(7, 8)])

def layeredRun : Run where
  config := {}
  objectCount := 9
  parents := .create 11
  sizes := .create 11
  visited := .create 11
  roles := .create 11
  tree? := layeredHeap.tree?

end HeapRetention
