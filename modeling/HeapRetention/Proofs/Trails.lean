import Mathlib.Logic.Relation

/-! Trails through a graph of numbered nodes from its root, and what it means that a node lies on all of
them. A passage that stays below a bound cannot be where a larger node was met. -/
namespace HeapRetention

/-- A trail from the root to a node: the nodes it passes, the latest one first. -/
inductive Trail (edge : Nat → Nat → Prop) (root : Nat) : List Nat → Nat → Prop
  | start : Trail edge root [root] root
  | step {l : List Nat} {a b : Nat} (h : Trail edge root l a) (hab : edge a b) :
      Trail edge root (b :: l) b

/-- Every trail from the root to `a` passes `d`. -/
def Dominates (edge : Nat → Nat → Prop) (root d a : Nat) : Prop :=
  ∀ l, Trail edge root l a → d ∈ l

/-- The closest of the nodes other than `a` that all trails to `a` pass. -/
structure IsImmediateDominator (edge : Nat → Nat → Prop) (root d a : Nat) : Prop where
  ne : d ≠ a
  dominates : Dominates edge root d a
  closest : ∀ c, c ≠ a → Dominates edge root c a → Dominates edge root c d

/-- A passage from one node to another after whose start no number exceeds the bound. -/
def Passage (edge : Nat → Nat → Prop) (bound : Nat) : Nat → Nat → Prop :=
  Relation.ReflTransGen fun a b => edge a b ∧ b ≤ bound

variable {edge : Nat → Nat → Prop} {root bound a b d : Nat}

theorem Trail.last_mem {l : List Nat} (h : Trail edge root l a) : a ∈ l := by
  cases h with
  | start => exact List.mem_cons_self
  | step _ _ => exact List.mem_cons_self

theorem dominates_self (edge : Nat → Nat → Prop) (root a : Nat) : Dominates edge root a a :=
  fun _ h => h.last_mem

theorem dominates_root (edge : Nat → Nat → Prop) (root a : Nat) : Dominates edge root root a := by
  intro l hl
  induction hl with
  | start => exact List.mem_cons_self
  | step _ _ ih => exact List.mem_cons_of_mem _ ih

/-- A trail that passes a node begins with a trail to that node. -/
theorem Trail.exists_of_mem {l : List Nat} (h : Trail edge root l a) (hd : d ∈ l) :
    ∃ l', Trail edge root l' d ∧ l' ⊆ l := by
  induction h with
  | start =>
    cases List.mem_singleton.mp hd
    exact ⟨_, .start, List.Subset.refl _⟩
  | step h hab ih =>
    rcases List.mem_cons.mp hd with rfl | hd
    · exact ⟨_, h.step hab, List.Subset.refl _⟩
    · obtain ⟨l', hl', hsub⟩ := ih hd
      exact ⟨l', hl', List.subset_cons_of_subset _ hsub⟩

theorem Dominates.trans {c : Nat} (h : Dominates edge root c d) (h' : Dominates edge root d a) :
    Dominates edge root c a := by
  intro l hl
  obtain ⟨l', hl', hsub⟩ := hl.exists_of_mem (h' l hl)
  exact hsub (h l' hl')

/-- A node dominates those that the root does not reach without it. -/
theorem dominates_iff (hne : d ≠ root) : Dominates edge root d a ↔
    ¬Relation.ReflTransGen (fun u v => edge u v ∧ v ≠ d) root a := by
  constructor
  · intro h hway
    have hno : ∃ l, Trail edge root l a ∧ d ∉ l := by
      clear h
      induction hway with
      | refl => exact ⟨_, .start, fun hd => hne (List.mem_singleton.mp hd)⟩
      | tail _ hstep ih =>
        obtain ⟨l, hl, hd⟩ := ih
        refine ⟨_, hl.step hstep.1, fun hin => ?_⟩
        rcases List.mem_cons.mp hin with he | hin
        · exact hstep.2 he.symm
        · exact hd hin
    obtain ⟨l, hl, hd⟩ := hno
    exact hd (h l hl)
  · intro h l hl
    refine Classical.byContradiction fun hd => h ?_
    clear h
    induction hl with
    | start => exact Relation.ReflTransGen.refl
    | step _ hab ih =>
      refine .tail (ih fun hin => hd (List.mem_cons_of_mem _ hin)) ⟨hab, ?_⟩
      rintro rfl
      exact hd List.mem_cons_self

/-- Whatever dominates the end of an edge, and is not that end, dominates its start. -/
theorem dominates_pred (h : edge a b) (hd : Dominates edge root d b) (hne : d ≠ b) :
    Dominates edge root d a := by
  intro l hl
  have hmem := hd _ (hl.step h)
  rcases List.mem_cons.mp hmem with he | hm
  · exact absurd he hne
  · exact hm

/-- A node above the bound that dominates the end of a passage dominates its start. -/
theorem dominates_of_passage (h : Passage edge bound a b) (hd : Dominates edge root d b)
    (hlt : bound < d) : Dominates edge root d a := by
  unfold Passage at h
  induction h with
  | refl => exact hd
  | tail _ hbc ih => exact ih (dominates_pred hbc.1 hd (by have := hbc.2; omega))

theorem Passage.mono {bound' : Nat} (h : Passage edge bound a b) (hle : bound ≤ bound') :
    Passage edge bound' a b :=
  Relation.ReflTransGen.mono (fun _ _ hab => ⟨hab.1, Nat.le_trans hab.2 hle⟩) _ _ h

theorem Passage.trans {c : Nat} (h : Passage edge bound a b) (h' : Passage edge bound b c) :
    Passage edge bound a c :=
  Relation.ReflTransGen.trans h h'

theorem Passage.single (h : edge a b) (hle : b ≤ bound) : Passage edge bound a b :=
  Relation.ReflTransGen.single ⟨h, hle⟩

end HeapRetention
