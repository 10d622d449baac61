import HeapRetention.Proofs.Lineages
import HeapRetention.Proofs.TreeLists
import Mathlib.Algebra.BigOperators.Ring.List

/-! The lines of the flame graph. Each belongs to the lineage of a node that is large enough and not too deep.
Lines follow those of the nodes below them and give away no bytes: what a node and the nodes that are shown
below it weigh together is what the node retains. -/
namespace HeapRetention

namespace FlameGraph

/-- The lineages whose lines `linesBelow` writes, in that order. -/
def lineages (f : FlameGraph) : (levels : Nat) → (above : List Nat) → (node : Nat) → List (List Nat)
  | 0, _, _ => []
  | levels + 1, above, node =>
    ((f.nodesBelow node).mergeSort (largerFirst f.retained.get)).flatMap fun child =>
      lineages f levels (child :: above) child ++ [child :: above]

/-- A lineage comes before the shorter ones at its end, and before those that part from it at a sibling of
lower rank. -/
def Earlier (size : Nat → Nat) (ds es : List Nat) : Prop :=
  (es <:+ ds ∧ es.length < ds.length) ∨
    ∃ c d above, c :: above <:+ ds ∧ d :: above <:+ es ∧ Outranks size c d

variable {f : FlameGraph} {levels node : Nat} {above ds es : List Nat}

theorem suffix_of_mem_lineages (h : ds ∈ f.lineages levels above node) :
    above <:+ ds ∧ above.length < ds.length := by
  induction levels generalizing above node with
  | zero => exact absurd h List.not_mem_nil
  | succ levels ih =>
    rw [lineages, List.mem_flatMap] at h
    obtain ⟨child, -, h⟩ := h
    rcases List.mem_append.mp h with hbelow | hself
    · obtain ⟨hsuffix, hlength⟩ := ih hbelow
      exact ⟨(List.suffix_cons child above).trans hsuffix, Nat.lt_trans (Nat.lt_succ_self _) hlength⟩
    · rw [List.mem_singleton.mp hself]
      exact ⟨List.suffix_cons child above, Nat.lt_succ_self _⟩

theorem pairwise_lineages (hnodup : ∀ node, (f.nodesBelow node).Nodup) (levels : Nat) (above : List Nat)
    (node : Nat) : (f.lineages levels above node).Pairwise (Earlier f.retained.get) := by
  induction levels generalizing above node with
  | zero => exact List.Pairwise.nil
  | succ levels ih =>
    rw [lineages, List.pairwise_flatMap]
    have hends : ∀ child, ∀ ds ∈ f.lineages levels (child :: above) child ++ [child :: above],
        child :: above <:+ ds := by
      intro child ds hds
      rcases List.mem_append.mp hds with hbelow | hself
      · exact (suffix_of_mem_lineages hbelow).1
      · rw [List.mem_singleton.mp hself]
    -- within what a child has below it, and between two children
    constructor
    · intro child _
      refine List.pairwise_append.mpr ⟨ih (child :: above) child, List.pairwise_singleton _ _, ?_⟩
      intro ds hds es hes
      rw [List.mem_singleton.mp hes]
      exact Or.inl (suffix_of_mem_lineages hds)
    · refine (pairwise_outranks f.retained.get (hnodup node)).imp fun {c d} hcd ds hds es hes => ?_
      exact Or.inr ⟨c, d, above, hends c ds hds, hends d es hes, hcd⟩

/-- Two ends of a list that are equally long are the same. -/
theorem head_eq_of_suffix {c d : Nat} (hc : c :: above <:+ ds) (hd : d :: above <:+ ds) : c = d := by
  have hsuffix := List.suffix_of_suffix_length_le hc hd (Nat.le_refl _)
  exact (List.cons.inj (hsuffix.eq_of_length rfl)).1

theorem exists_last_of_suffix (h : above <:+ ds) (hlt : above.length < ds.length) :
    ∃ lower c, ds = lower ++ c :: above := by
  obtain ⟨new, rfl⟩ := h
  rcases List.eq_nil_or_concat new with rfl | ⟨lower, c, rfl⟩
  · exact absurd hlt (Nat.lt_irrefl _)
  · exact ⟨lower, c, by rw [List.concat_eq_append, List.append_assoc, List.singleton_append]⟩

theorem Earlier.not_suffix {size : Nat → Nat} (h : Earlier size ds es) : ¬ds <:+ es := by
  intro hback
  rcases h with ⟨-, hlt⟩ | ⟨c, d, above, hc, hd, hcd⟩
  · exact absurd hback.length_le (Nat.not_le.mpr hlt)
  · have heq := head_eq_of_suffix (hc.trans hback) hd
    subst heq
    unfold Outranks at hcd
    omega

/-- Siblings come in the order of their rank. -/
theorem Earlier.outranks {size : Nat → Nat} {a b : Nat} (h : Earlier size (a :: above) (b :: above)) :
    Outranks size a b := by
  rcases h with ⟨-, hlt⟩ | ⟨c, d, above', hc, hd, hcd⟩
  · exact absurd hlt (Nat.lt_irrefl _)
  · rcases List.suffix_cons_iff.mp hc with heq | hin
    · cases heq
      have hlast := head_eq_of_suffix hd (List.suffix_refl _)
      rwa [hlast] at hcd
    · -- the two would part further up, where their lineages are the same
      rcases List.suffix_cons_iff.mp hd with heq | hin'
      · cases heq
        have hle := hin.length_le
        rw [List.length_cons] at hle
        exact absurd hle (Nat.not_le.mpr (Nat.lt_succ_self _))
      · have heq := head_eq_of_suffix hin hin'
        subst heq
        unfold Outranks at hcd
        omega

/-- The flame graph has the nodes of a tree that retain enough, under their immediate dominators. Dominators
retain more, and no less than all nodes right below them together. -/
structure Draws (f : FlameGraph) (tree : DominatorTree) (minBytes : Nat) : Prop where
  forest : IsForest tree.idoms tree.superRoot
  retained : ∀ p, p ≤ tree.superRoot → f.retained.get p = tree.retainedUnits p
  mem_nodesBelow : ∀ p d, p ∈ f.nodesBelow d ↔
    0 < p ∧ p < tree.superRoot ∧ minBytes ≤ 4 * tree.retainedUnits p ∧ tree.immediateDominator? p = some d
  nodup : ∀ d, (f.nodesBelow d).Nodup
  mono : ∀ q ds, tree.Lineage q ds → ∀ c ∈ ds, tree.retainedUnits q ≤ tree.retainedUnits c
  fits : ∀ p, 0 < p → p < tree.superRoot →
    ((f.nodesBelow p).map f.retained.get).sum ≤ f.retained.get p

theorem Draws.bounds {tree : DominatorTree} {minBytes c d : Nat} (hf : f.Draws tree minBytes)
    (hc : c ∈ f.nodesBelow d) : 0 < c ∧ c < tree.superRoot := by
  obtain ⟨h0, hlt, -⟩ := (hf.mem_nodesBelow c d).mp hc
  exact ⟨h0, hlt⟩

/-- A node that is large enough is not lost behind a dominator that is not shown: dominators retain more. -/
theorem Draws.mem_lineages_iff {tree : DominatorTree} {minBytes : Nat} (hf : f.Draws tree minBytes)
    (habove : tree.Lineage node above) : ds ∈ f.lineages levels above node ↔
    above <:+ ds ∧ above.length < ds.length ∧ ds.length ≤ levels + above.length ∧
      ∃ p, tree.Lineage p ds ∧ minBytes ≤ 4 * tree.retainedUnits p := by
  induction levels generalizing above node with
  | zero =>
    refine iff_of_false List.not_mem_nil ?_
    rintro ⟨-, hlt, hle, -⟩
    omega
  | succ levels ih =>
    have hchild : ∀ c ∈ f.nodesBelow node, tree.Lineage c (c :: above) := by
      intro c hc
      obtain ⟨h0, hlt, -, hd⟩ := (hf.mem_nodesBelow c node).mp hc
      exact .under h0 hlt hd habove
    rw [lineages, List.mem_flatMap]
    constructor
    · rintro ⟨c, hc, hds⟩
      have hc := List.mem_mergeSort.mp hc
      rcases List.mem_append.mp hds with hbelow | hself
      · obtain ⟨hsuffix, hlt, hle, hp⟩ := (ih (hchild c hc)).mp hbelow
        rw [List.length_cons] at hlt hle
        exact ⟨(List.suffix_cons c above).trans hsuffix, by omega, by omega, hp⟩
      · rw [List.mem_singleton.mp hself]
        refine ⟨List.suffix_cons c above, Nat.lt_succ_self _, by rw [List.length_cons]; omega, c, hchild c hc, ?_⟩
        exact ((hf.mem_nodesBelow c node).mp hc).2.2.1
    · rintro ⟨hsuffix, hlt, hle, p, hp, hlarge⟩
      obtain ⟨lower, c, rfl⟩ := exists_last_of_suffix hsuffix hlt
      rw [List.length_append, List.length_cons] at hle
      have hsuffix : c :: above <:+ lower ++ c :: above := List.suffix_append _ _
      -- `c` is as large as the node, so it is shown as well
      have hc : c ∈ f.nodesBelow node := by
        have hmore := hf.mono p _ hp c (hsuffix.mem List.mem_cons_self)
        cases hp.of_suffix hsuffix with
        | under h0 hlt hd hup =>
          cases hup.eq_of_eq habove
          exact (hf.mem_nodesBelow c node).mpr ⟨h0, hlt, by omega, hd⟩
      refine ⟨c, List.mem_mergeSort.mpr hc, List.mem_append.mpr ?_⟩
      cases lower with
      | nil => exact Or.inr List.mem_cons_self
      | cons q lower =>
        refine Or.inl ((ih (hchild c hc)).mpr ⟨hsuffix, ?_, ?_, p, hp, hlarge⟩)
        · rw [List.length_append, List.length_cons (a := q)]
          omega
        · rw [List.length_append, List.length_cons (a := c)]
          omega

end FlameGraph

end HeapRetention
