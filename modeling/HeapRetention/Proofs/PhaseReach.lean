import HeapRetention.Reach.Walk

/-! What each phase of a traversal may reach. A phase has its seeds, its edges and its ban on some objects;
later phases have more seeds, more edges and fewer bans, so what they reach only grows. -/
namespace HeapRetention

/-- The phase that releases the referents of a strength. -/
def ReferentStrength.phase : ReferentStrength → Phase
  | .soft => .soft
  | .weak => .weak

/-- The numbers of the objects of a heap. -/
def InHeap (count id : Nat) : Prop :=
  0 < id ∧ id ≤ count

namespace Terrain

inductive Seed (t : Terrain) (P : Phase) : ObjectId → Prop
  | root {r : GcRoot} (hr : r ∈ t.graph.roots) (hs : r.stackFrame = false) : Seed t P r.id
  | held {c : ClassDefinition} {id : ObjectId} (hc : c ∈ t.graph.classes.toList) (hid : id ∈ c.held) :
      Seed t P id
  | stack {r : GcRoot} (hr : r ∈ t.graph.roots) (hs : r.stackFrame = true) (hP : .strongLocal ≤ P) :
      Seed t P r.id
  | sentinel (hP : .syntheticTree ≤ P) : Seed t P t.sentinel

/-- The edges that a phase follows: the reference slots but that of a referent, the edges of the synthetic
tree, and the referent from its phase on, unless only strong references count. -/
inductive OutEdge (t : Terrain) (P : Phase) (u : ObjectId) : ObjectId → Prop
  | slot {i : Nat} {v : ObjectId} (hv : (t.graph.references u)[i]? = some v)
      (hi : ∀ r, t.graph.referentSlot? u = some r → r.slot ≠ i) : OutEdge t P u v
  | child {v : ObjectId} (hv : v ∈ (t.syntheticChildren? u).getD []) : OutEdge t P u v
  | referent {r : ReferentSlot} {v : ObjectId} (hr : t.graph.referentSlot? u = some r)
      (hv : (t.graph.references u)[r.slot]? = some v) (hP : r.strength.phase ≤ P)
      (honly : t.options.onlyStrongReferences = false) : OutEdge t P u v

/-- Whether a phase lets an object in: the sentinel has its phase, and so have cleanup markers, which never
come in when only strong references count. -/
structure Admits (t : Terrain) (P : Phase) (id : ObjectId) : Prop where
  sentinel : id = t.sentinel → .syntheticTree ≤ P
  marker : t.isCleanupMarker id = true → .cleanupReferences ≤ P ∧ t.options.onlyStrongReferences = false

/-- The least set of objects that has the seeds of a phase and is closed under its edges, with those left
out that the phase does not let in. -/
inductive Reach (t : Terrain) (count : Nat) (P : Phase) : ObjectId → Prop
  | seed {id : ObjectId} (h : Seed t P id) (hv : InHeap count id) (ha : Admits t P id) :
      Reach t count P id
  | step {u v : ObjectId} (hu : Reach t count P u) (h : OutEdge t P u v) (hv : InHeap count v)
      (ha : Admits t P v) : Reach t count P v

/-- An object that a phase reaches once it lets the object in. -/
structure Candidate (t : Terrain) (count : Nat) (P : Phase) (id : ObjectId) : Prop where
  valid : InHeap count id
  source : Seed t P id ∨ ∃ u, Reach t count P u ∧ OutEdge t P u id

end Terrain

namespace Phase

theorem le_refl (P : Phase) : P ≤ P :=
  Nat.le_refl P.rank

theorem le_trans {P Q R : Phase} (h : P ≤ Q) (h' : Q ≤ R) : P ≤ R :=
  Nat.le_trans h h'

theorem le_of_lt {P Q : Phase} (h : P < Q) : P ≤ Q :=
  Nat.le_of_lt h

theorem not_le {P Q : Phase} : ¬P ≤ Q ↔ Q < P :=
  Nat.not_le

theorem not_lt {P Q : Phase} : ¬P < Q ↔ Q ≤ P :=
  Nat.not_lt

theorem eq_of_rank {P Q : Phase} (h : P.rank = Q.rank) : P = Q := by
  cases P <;> cases Q <;> cases h <;> rfl

theorem lt_or_eq {P Q : Phase} (h : P ≤ Q) : P < Q ∨ P = Q := by
  rcases Nat.lt_or_eq_of_le h with hlt | heq
  · exact Or.inl hlt
  · exact Or.inr (eq_of_rank heq)

/-- Only the last phase is its own successor; the ranks of all others go up by one. -/
theorem rank_next {P : Phase} (h : P ≠ .finished) : P.next.rank = P.rank + 1 := by
  cases P with
  | finished => exact absurd rfl h
  | _ => rfl

theorem lt_next {P : Phase} (h : P ≠ .finished) : P < P.next := by
  change P.rank < P.next.rank
  rw [rank_next h]
  exact Nat.lt_succ_self P.rank

theorem lt_next_iff {P Q : Phase} (h : P ≠ .finished) : Q < P.next ↔ Q ≤ P := by
  change Q.rank < P.next.rank ↔ Q.rank ≤ P.rank
  rw [rank_next h]
  exact Nat.lt_succ_iff

/-- Nothing lies between a phase and the next one. -/
theorem next_le_iff {P Q : Phase} (h : P ≠ .finished) : P.next ≤ Q ↔ P < Q := by
  change P.next.rank ≤ Q.rank ↔ P.rank < Q.rank
  rw [rank_next h]
  exact Nat.succ_le_iff

theorem le_finished (P : Phase) : P ≤ .finished := by
  cases P <;> decide

end Phase

namespace Terrain
variable {t : Terrain} {count : Nat} {P Q : Phase} {id u v : ObjectId}

theorem Seed.mono (h : Seed t P id) (hle : P ≤ Q) : Seed t Q id := by
  cases h with
  | root hr hs => exact .root hr hs
  | held hc hid => exact .held hc hid
  | stack hr hs hP => exact .stack hr hs (Phase.le_trans hP hle)
  | sentinel hP => exact .sentinel (Phase.le_trans hP hle)

/-- Before the last strong phase the seeds are the same but for the sentinel. -/
theorem Seed.local_or_sentinel (h : Seed t .syntheticTree id) : Seed t .strongLocal id ∨ id = t.sentinel := by
  cases h with
  | root hr hs => exact Or.inl (.root hr hs)
  | held hc hid => exact Or.inl (.held hc hid)
  | stack hr hs _ => exact Or.inl (.stack hr hs (Phase.le_refl _))
  | sentinel _ => exact Or.inr rfl

theorem OutEdge.mono (h : OutEdge t P u v) (hle : P ≤ Q) : OutEdge t Q u v := by
  cases h with
  | slot hv hi => exact .slot hv hi
  | child hv => exact .child hv
  | referent hr hv hP honly => exact .referent hr hv (Phase.le_trans hP hle) honly

theorem Admits.mono (h : Admits t P id) (hle : P ≤ Q) : Admits t Q id :=
  ⟨fun he => Phase.le_trans (h.sentinel he) hle,
    fun hm => ⟨Phase.le_trans (h.marker hm).1 hle, (h.marker hm).2⟩⟩

/-- Later phases reach no less. -/
theorem Reach.mono (h : Reach t count P id) (hle : P ≤ Q) : Reach t count Q id := by
  induction h with
  | seed h hv ha => exact .seed (h.mono hle) hv (ha.mono hle)
  | step _ h hv ha ih => exact .step ih (h.mono hle) hv (ha.mono hle)

theorem Candidate.mono (h : Candidate t count P id) (hle : P ≤ Q) : Candidate t count Q id := by
  refine ⟨h.valid, h.source.imp (fun hs => hs.mono hle) ?_⟩
  rintro ⟨u, hu, he⟩
  exact ⟨u, hu.mono hle, he.mono hle⟩

theorem Reach.valid (h : Reach t count P id) : InHeap count id := by
  cases h with
  | seed _ hv _ => exact hv
  | step _ _ hv _ => exact hv

theorem Reach.admits (h : Reach t count P id) : Admits t P id := by
  cases h with
  | seed _ _ ha => exact ha
  | step _ _ _ ha => exact ha

theorem Candidate.reach (h : Candidate t count P id) (ha : Admits t P id) : Reach t count P id := by
  rcases h.source with hs | ⟨u, hu, he⟩
  · exact .seed hs h.valid ha
  · exact .step hu he h.valid ha

end Terrain
end HeapRetention
