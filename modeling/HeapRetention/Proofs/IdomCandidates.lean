import HeapRetention.Proofs.IdomChains
import HeapRetention.Proofs.Trails

/-! What every entry of the idom list is worth while the passes are under way. An entry is no larger than
any node that dominates its index, and a passage through smaller nodes leads from it to its index. Both
facts are about one entry and the graph alone, so an update of one entry leaves those of all others as
they are; together they keep every dominator on the chain of the node it dominates. -/
namespace HeapRetention

/-- `v` may stand as the idom of `a`: it is larger, no dominator of `a` other than `a` lies below it, and
it leads to `a` through no larger node. -/
structure IdomCandidate (edge : Nat → Nat → Prop) (root a v : Nat) : Prop where
  above : a < v
  le_root : v ≤ root
  passage : Passage edge v v a
  le_dominator : ∀ d, d ≠ a → Dominates edge root d a → v ≤ d

/-- An idom list in which every known entry may stand. -/
structure IsSound (edge : Nat → Nat → Prop) (root : Nat) (idoms : Slots) : Prop where
  forest : IsForest idoms root
  candidate : ∀ a < root, idoms.get a ≠ 0 → IdomCandidate edge root a (idoms.get a)

/-- The index lists the predecessors of each node, the largest one first, and that one is larger than
the node. -/
structure EdgeIndex.Describes (x : EdgeIndex) (edge : Nat → Nat → Prop) (root : Nat) : Prop where
  mem_incoming : ∀ a, 0 < a → a < root → ∀ u, u ∈ x.incoming a ↔ edge u a
  descending : ∀ a, 0 < a → a < root → (x.incoming a).Pairwise (· ≥ ·)
  bounds : ∀ a, 0 < a → a < root → ∀ u, edge u a → 0 < u ∧ u ≤ root
  larger : ∀ a, 0 < a → a < root → ∃ u, edge u a ∧ a < u

/-- Every node from `n` on has an idom. -/
def KnownFrom (idoms : Slots) (root n : Nat) : Prop :=
  ∀ a, n ≤ a → 0 < a → a < root → idoms.get a ≠ 0

variable {edge : Nat → Nat → Prop} {root : Nat} {idoms : Slots} {x : EdgeIndex}

/-- A candidate that dominates is the immediate dominator: others that are farther away are not met on the
passage from there. -/
theorem IdomCandidate.isImmediateDominator {a v : Nat} (h : IdomCandidate edge root a v)
    (hd : Dominates edge root v a) : IsImmediateDominator edge root v a := by
  refine ⟨Nat.ne_of_gt h.above, hd, fun c hne hc => ?_⟩
  rcases Nat.eq_or_lt_of_le (h.le_dominator c hne hc) with he | hbeyond
  · rw [← he]
    exact dominates_self edge root v
  · exact dominates_of_passage h.passage hc hbeyond

namespace KnownFrom
variable {n m u : Nat}

theorem mono (h : KnownFrom idoms root n) (hle : n ≤ m) : KnownFrom idoms root m :=
  fun a hma ha0 har => h a (Nat.le_trans hle hma) ha0 har

/-- The super root is known anyway. -/
theorem of_le_root (h : KnownFrom idoms root n) (hforest : IsForest idoms root) (hn : n ≤ u) (h0 : 0 < u)
    (hle : u ≤ root) : idoms.get u ≠ 0 := by
  rcases Nat.eq_or_lt_of_le hle with rfl | hlt
  · exact hforest.root_known
  · exact h u hn h0 hlt

end KnownFrom

namespace IsSound
variable {a d : Nat}

/-- Every dominator of a known node is met on its chain. -/
theorem onChain_of_dominates (h : IsSound edge root idoms) (hle : a ≤ root) (hk : idoms.get a ≠ 0)
    (hd : Dominates edge root d a) : OnChain idoms.get a d := by
  refine h.forest.induction_down
    (P := fun a => ∀ d, Dominates edge root d a → OnChain idoms.get a d) ?_ ?_ a hle hk d hd
  · intro d hd
    have hmem := hd _ Trail.start
    rw [List.mem_singleton] at hmem
    rw [hmem]
    exact onChain_self _ _
  · intro a _ hlt hk ih d hd
    have hc := h.candidate a hlt hk
    by_cases hda : d = a
    · rw [hda]
      exact onChain_self _ _
    -- a dominator beyond the idom is not met on the passage from there, so it dominates the idom too
    rcases Nat.eq_or_lt_of_le (hc.le_dominator d hda hd) with he | hbeyond
    · rw [← he]
      exact (onChain_self _ _).below
    · exact (ih d (dominates_of_passage hc.passage hd hbeyond)).below

/-- A chain goes down through passages below its upper end. -/
theorem passage_of_onChain (h : IsSound edge root idoms) (hle : a ≤ root) (hk : idoms.get a ≠ 0)
    (hd : OnChain idoms.get a d) : Passage edge d d a := by
  refine h.forest.induction_down
    (P := fun a => ∀ d, OnChain idoms.get a d → Passage edge d d a) ?_ ?_ a hle hk d hd
  · intro d hd
    obtain ⟨h1, h2, -⟩ := h.forest.of_onChain (Nat.le_refl root) h.forest.root_known hd
    have he : d = root := Nat.le_antisymm h2 h1
    rw [he]
    exact Relation.ReflTransGen.refl
  · intro a _ hlt hk ih d hd
    rcases onChain_iff.mp hd with rfl | hup
    · exact Relation.ReflTransGen.refl
    · have hc := h.candidate a hlt hk
      have hge := (h.forest.of_onChain hc.le_root (h.forest.closed a hlt hk) hup).1
      exact (ih d hup).trans (hc.passage.mono hge)

end IsSound

/-- What one more predecessor makes of the meeting so far. One without an idom leaves it as it is. -/
theorem intersect_finds {a p : Nat} (h : IsForest idoms root) (hle : a ≤ root)
    (hk : idoms.get a ≠ 0) (hp : 0 < p) (hpa : p ≤ a) :
    OnChain idoms.get a (intersect idoms root a p) ∧
      (idoms.get p ≠ 0 → OnChain idoms.get p (intersect idoms root a p)) ∧
      (∀ c, OnChain idoms.get a c → (idoms.get p ≠ 0 → OnChain idoms.get p c) →
        OnChain idoms.get (intersect idoms root a p) c) := by
  by_cases hkp : idoms.get p = 0
  · rw [intersect_unknown hpa hk hkp (by omega)]
    exact ⟨onChain_self _ _, fun hne => absurd hkp hne, fun c hc _ => hc⟩
  · have hmeet := intersect_meets h hle (by omega) hk hkp
    exact ⟨hmeet.left, fun _ => hmeet.right, fun c hc hcp => hmeet.closest c hc (hcp hkp)⟩

/-- The meeting of the predecessors taken in lies on the chains of all of them that are known, and it is
the first node to do so. -/
theorem join_meets (h : IsForest idoms root) (rest : List Nat) (m : Meeting) (hm : m.idom ≤ root)
    (hk : idoms.get m.idom ≠ 0) (hrest : ∀ u ∈ rest, 0 < u ∧ u ≤ m.idom) :
    OnChain idoms.get m.idom (m.join idoms root rest).idom ∧
      (∀ u ∈ rest, idoms.get u ≠ 0 → OnChain idoms.get u (m.join idoms root rest).idom) ∧
      (∀ c, OnChain idoms.get m.idom c → (∀ u ∈ rest, idoms.get u ≠ 0 → OnChain idoms.get u c) →
        OnChain idoms.get (m.join idoms root rest).idom c) := by
  induction rest generalizing m with
  | nil =>
    refine ⟨onChain_self _ _, ?_, fun c hc _ => hc⟩
    intro u hu
    exact absurd hu List.not_mem_nil
  | cons p rest ih =>
    obtain ⟨hp, hpm⟩ := hrest p List.mem_cons_self
    obtain ⟨hleft, hright, hclosest⟩ := intersect_finds h hm hk hp hpm
    obtain ⟨hge, hfr, hfk⟩ := h.of_onChain hm hk hleft
    have hne : intersect idoms root m.idom p ≠ 0 := by omega
    unfold Meeting.join
    rw [if_neg (by omega)]
    simp only [if_neg hne]
    by_cases htop : intersect idoms root m.idom p = root
    · rw [if_pos htop]
      refine ⟨hleft, ?_, fun c hc hcs => hclosest c hc (hcs p List.mem_cons_self)⟩
      intro u hu hku
      rcases List.mem_cons.mp hu with rfl | hu
      · exact hright hku
      · rw [htop]
        exact h.reaches_root (by have := hrest u (List.mem_cons_of_mem _ hu); omega) hku
    · rw [if_neg htop]
      obtain ⟨hj1, hj2, hj3⟩ := ih ⟨intersect idoms root m.idom p, m.intersections + 1, m.skipped⟩ hfr hfk
        (fun u hu => by have := hrest u (List.mem_cons_of_mem _ hu); dsimp only; omega)
      refine ⟨hleft.trans hj1, ?_, ?_⟩
      · intro u hu hku
        rcases List.mem_cons.mp hu with rfl | hu
        · exact (hright hku).trans hj1
        · exact hj2 u hu hku
      · intro c hc hcs
        exact hj3 c (hclosest c hc (hcs p List.mem_cons_self))
          fun u hu => hcs u (List.mem_cons_of_mem _ hu)

end HeapRetention
