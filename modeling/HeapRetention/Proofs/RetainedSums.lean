import HeapRetention.Dominance.Retained
import HeapRetention.Proofs.IdomCandidates
import Mathlib.Algebra.Order.BigOperators.Group.Finset
import Mathlib.Algebra.Ring.Nat
import Mathlib.Order.Interval.Finset.Nat

/-! What the ascending pass over the nodes adds up. Once the nodes below `n` have handed their sizes on, a
node holds the sizes of those that reach it through nodes below `n`; in the end it holds the size of every
node on whose chain it lies. Sums in 32 bits stay full, so all of this is about sizes cut off there. -/
namespace HeapRetention

open Classical in
/-- The sum of the sizes of those numbers below `root` that have a property. -/
noncomputable def sumBelow (root : Nat) (size : Nat → Nat) (P : Nat → Prop) : Nat :=
  ∑ q ∈ Finset.Ico 1 root with P q, size q

/-- The size of `q` has come to `b` once the nodes below `n` have handed theirs on. -/
def Gathered (idoms : Slots) (n b q : Nat) : Prop :=
  OnChain idoms.get q b ∧ ∀ c, OnChain idoms.get q c → c < b → c < n

theorem total_eq_sum (ns : List Nat) : total ns = ns.sum := by
  induction ns with
  | nil => rfl
  | cons n ns ih => rw [total_cons, List.sum_cons, ih]

section
variable {root n : Nat} {size : Nat → Nat} {P Q : Nat → Prop}

theorem sumBelow_congr (h : ∀ q, 0 < q → q < root → (P q ↔ Q q)) :
    sumBelow root size P = sumBelow root size Q := by
  classical
  refine Finset.sum_congr (Finset.filter_congr fun q hq => ?_) fun _ _ => rfl
  rw [Finset.mem_Ico] at hq
  exact h q (by omega) hq.2

theorem sumBelow_congr_size {size' : Nat → Nat} (h : ∀ q, 0 < q → q < root → size q = size' q) :
    sumBelow root size P = sumBelow root size' P := by
  classical
  refine Finset.sum_congr rfl fun q hq => ?_
  rw [Finset.mem_filter, Finset.mem_Ico] at hq
  exact h q (by omega) hq.1.2

theorem sumBelow_mono (h : ∀ q, 0 < q → q < root → P q → Q q) :
    sumBelow root size P ≤ sumBelow root size Q := by
  classical
  refine Finset.sum_le_sum_of_subset fun q hq => ?_
  rw [Finset.mem_filter, Finset.mem_Ico] at hq ⊢
  exact ⟨hq.1, h q (by omega) hq.1.2 hq.2⟩

theorem sumBelow_or (h : ∀ q, ¬(P q ∧ Q q)) :
    sumBelow root size (fun q => P q ∨ Q q) = sumBelow root size P + sumBelow root size Q := by
  classical
  unfold sumBelow
  rw [← Finset.sum_union]
  · refine Finset.sum_congr ?_ fun _ _ => rfl
    ext q
    simp only [Finset.mem_union, Finset.mem_filter, and_or_left]
  · refine Finset.disjoint_left.mpr fun q hp hq => h q ?_
    exact ⟨(Finset.mem_filter.mp hp).2, (Finset.mem_filter.mp hq).2⟩

theorem sumBelow_none (h : ∀ q, 0 < q → q < root → ¬P q) : sumBelow root size P = 0 := by
  classical
  refine Finset.sum_eq_zero fun q hq => ?_
  rw [Finset.mem_filter, Finset.mem_Ico] at hq
  exact absurd hq.2 (h q (by omega) hq.1.2)

theorem sumBelow_single (h0 : 0 < n) (hn : n < root) : sumBelow root size (fun q => q = n) = size n := by
  classical
  have hset : (Finset.Ico 1 root).filter (fun q => q = n) = {n} := by
    ext q
    rw [Finset.mem_filter, Finset.mem_Ico, Finset.mem_singleton]
    omega
  refine Eq.trans ?_ (Finset.sum_singleton size n)
  rw [← hset]
  unfold sumBelow
  congr

end

variable {idoms : Slots} {root n b q c d : Nat}

/-- Of two nodes on a chain the smaller one leads to the larger one. -/
theorem IsForest.onChain_of_le (h : IsForest idoms root) (hle : q ≤ root) (hk : idoms.get q ≠ 0)
    (hc : OnChain idoms.get q c) (hd : OnChain idoms.get q d) (hcd : c ≤ d) : OnChain idoms.get c d := by
  refine h.induction_down (P := fun q => ∀ c d, OnChain idoms.get q c → OnChain idoms.get q d → c ≤ d →
    OnChain idoms.get c d) ?_ ?_ q hle hk c d hc hd hcd
  · intro c d hc hd _
    obtain ⟨h1, h2, -⟩ := h.of_onChain (Nat.le_refl root) h.root_known hc
    rwa [show c = root by omega]
  · intro q _ hlt hk ih c d hc hd hcd
    rcases onChain_iff.mp hc with rfl | hc
    · exact hd
    · obtain ⟨hup, htop⟩ := h.climbs q hlt hk
      have hqc := (h.of_onChain htop (h.closed q hlt hk) hc).1
      exact ih c d hc (hd.above (by omega)) hcd

/-- What one more node hands on: its own gatherings, and only to its idom. -/
theorem gathered_succ (h : IsForest idoms root) (hn : n < root) (hkn : idoms.get n ≠ 0) (hle : q ≤ root)
    (hk : idoms.get q ≠ 0) :
    Gathered idoms (n + 1) b q ↔ Gathered idoms n b q ∨ (idoms.get n = b ∧ Gathered idoms n n q) := by
  obtain ⟨hup, htop⟩ := h.climbs n hn hkn
  constructor
  · rintro ⟨hb, hall⟩
    by_cases hnew : OnChain idoms.get q n ∧ n < b
    · refine Or.inr ⟨?_, hnew.1, fun c _ hc => hc⟩
      have hidom : OnChain idoms.get q (idoms.get n) := hnew.1.trans (onChain_self _ _).below
      have hnb := (h.onChain_of_le hle hk hnew.1 hb (Nat.le_of_lt hnew.2)).above (by omega)
      have hle' := (h.of_onChain htop (h.closed n hn hkn) hnb).1
      by_cases hlt : idoms.get n < b
      · have := hall _ hidom hlt
        omega
      · omega
    · refine Or.inl ⟨hb, fun c hc hcb => ?_⟩
      have hcn := hall c hc hcb
      rcases Nat.lt_succ_iff_lt_or_eq.mp hcn with hlt | rfl
      · exact hlt
      · exact absurd ⟨hc, hcb⟩ hnew
  · rintro (⟨hb, hall⟩ | ⟨rfl, hqn, -⟩)
    · exact ⟨hb, fun c hc hcb => Nat.lt_succ_of_lt (hall c hc hcb)⟩
    · refine ⟨hqn.trans (onChain_self _ _).below, fun c hc hcb => ?_⟩
      by_cases hcn : c ≤ n
      · omega
      -- a node beyond `n` on the chain is no smaller than the idom of `n`
      · have hnc := (h.onChain_of_le hle hk hqn hc (by omega)).above (by omega)
        have := (h.of_onChain htop (h.closed n hn hkn) hnc).1
        omega

/-- The state of the pass before node `n`. -/
structure GatheredTo (idoms : Slots) (root : Nat) (size : Nat → Nat) (sizes : Slots) (n : Nat) : Prop where
  room : sizes.capacity = root + 1
  sums : ∀ b, 0 < b → b ≤ root →
    min wordMax (sizes.get b) = min wordMax (sumBelow root size (Gathered idoms n b))

theorem min_addUnits {x y u v : Nat} (hx : min wordMax x = min wordMax u)
    (hy : min wordMax y = min wordMax v) :
    min wordMax (addUnits x y) = min wordMax (u + v) := by
  unfold addUnits
  omega

variable {size : Nat → Nat} {sizes : Slots}

theorem GatheredTo.fold (hf : IsForest idoms root) (hall : KnownFrom idoms root 0)
    (h : GatheredTo idoms root size sizes n) (h0 : 0 < n) (hn : n < root) :
    GatheredTo idoms root size (Retained.fold idoms sizes n) (n + 1) := by
  have hkn := hall n (Nat.zero_le n) h0 hn
  obtain ⟨hup, htop⟩ := hf.climbs n hn hkn
  -- the idom gathers what the node has gathered, and nothing of it was there before
  have hstep : ∀ b, sumBelow root size (Gathered idoms (n + 1) b) =
      sumBelow root size (fun q => Gathered idoms n b q ∨ (idoms.get n = b ∧ Gathered idoms n n q)) :=
    fun b => sumBelow_congr fun q hq0 hq =>
      gathered_succ hf hn hkn (Nat.le_of_lt hq) (hall q (Nat.zero_le q) hq0 hq)
  refine ⟨(Slots.capacity_put _ _ _).trans h.room, fun b hb0 hb => ?_⟩
  have hget : (Retained.fold idoms sizes n).get b =
      if idoms.get n = b then addUnits (sizes.get b) (sizes.get n) else sizes.get b := by
    change (sizes.put (idoms.get n) _).get b = _
    rw [Slots.get_put, h.room]
    by_cases he : idoms.get n = b
    · rw [if_pos ⟨he, by omega⟩, if_pos he, he]
    · rw [if_neg fun hand => he hand.1, if_neg he]
  rw [hget, hstep]
  by_cases he : idoms.get n = b
  · rw [if_pos he, sumBelow_or]
    · simp only [he, true_and]
      exact min_addUnits (h.sums b hb0 hb) (h.sums n h0 (Nat.le_of_lt hn))
    · rintro q ⟨⟨-, hbelow⟩, -, hqn, -⟩
      have := hbelow n hqn (by omega)
      omega
  · rw [if_neg he]
    simp only [he, false_and, or_false]
    exact h.sums b hb0 hb

theorem GatheredTo.foldl (hf : IsForest idoms root) (hall : KnownFrom idoms root 0) {count : Nat}
    (h : GatheredTo idoms root size sizes n) (h0 : 0 < n) (hcount : n + count ≤ root) :
    GatheredTo idoms root size ((List.range' n count).foldl (Retained.fold idoms) sizes) (n + count) := by
  induction count generalizing n sizes with
  | zero => exact h
  | succ count ih =>
    have hdone := ih (h.fold hf hall h0 (by omega)) (Nat.succ_pos n) (by omega)
    rwa [show n + 1 + count = n + (count + 1) by omega] at hdone

variable {g : FlowGraph} {p : Postorder}

theorem get_foldl_put (f : Nat → Nat) (nodes : List Nat) (sizes : Slots) (b : Nat) :
    (nodes.foldl (fun sizes node => sizes.put node (f node)) sizes).get b =
      if b ∈ nodes ∧ b < sizes.capacity then f b else sizes.get b := by
  induction nodes generalizing sizes with
  | nil => exact (if_neg fun h => List.not_mem_nil h.1).symm
  | cons n nodes ih =>
    rw [List.foldl_cons, ih, Slots.capacity_put, Slots.get_put]
    by_cases hb : b < sizes.capacity
    · by_cases hn : n = b
      · subst hn
        simp only [hb, and_true, if_true, List.mem_cons_self, ite_self]
      · have hmem : b ∈ n :: nodes ↔ b ∈ nodes := by
          rw [List.mem_cons, or_iff_right fun h => hn h.symm]
        simp only [hn, hmem, false_and, if_false]
    · have hout : ¬(n = b ∧ n < sizes.capacity) := fun h => hb (h.1 ▸ h.2)
      simp only [hb, hout, and_false, if_false]

theorem capacity_foldl_put (f : Nat → Nat) (nodes : List Nat) (sizes : Slots) :
    (nodes.foldl (fun sizes node => sizes.put node (f node)) sizes).capacity = sizes.capacity := by
  induction nodes generalizing sizes with
  | nil => rfl
  | cons n nodes ih => exact (ih _).trans (Slots.capacity_put _ _ _)

theorem gatheredTo_own (hf : IsForest idoms p.superRoot) (hall : KnownFrom idoms p.superRoot 0) :
    GatheredTo idoms p.superRoot (fun q => g.run.sizeUnits (p.objects.get q)) (Retained.own g p) 1 := by
  refine ⟨capacity_foldl_put _ _ _, fun b h0 hb => ?_⟩
  -- before the first node a size has come to nobody but its own node
  have hself : ∀ q, 0 < q → q < p.superRoot → (Gathered idoms 1 b q ↔ q = b) := by
    intro q hq0 hq
    have hup := fun c => hf.of_onChain (d := c) (Nat.le_of_lt hq) (hall q (Nat.zero_le q) hq0 hq)
    constructor
    · rintro ⟨hqb, hbelow⟩
      have hle := (hup b hqb).1
      by_cases hlt : q < b
      · have := hbelow q (onChain_self _ _) hlt
        omega
      · omega
    · rintro rfl
      refine ⟨onChain_self _ _, fun c hc hcq => ?_⟩
      have := (hup c hc).1
      omega
  have hget : (Retained.own g p).get b =
      if b < p.superRoot then g.run.sizeUnits (p.objects.get b) else 0 := by
    have hmem : b ∈ p.nodes ∧ b < p.superRoot + 1 ↔ b < p.superRoot := by
      unfold Postorder.nodes
      rw [List.mem_range'_1]
      omega
    refine (get_foldl_put _ _ _ b).trans ?_
    rw [Slots.capacity_create, Slots.get_create]
    simp only [hmem]
  rw [hget, sumBelow_congr hself]
  by_cases hlt : b < p.superRoot
  · rw [if_pos hlt, sumBelow_single h0 hlt]
  · rw [if_neg hlt, sumBelow_none fun q _ hq => by omega]

/-- The pass leaves with every node the sizes of those on whose chains it lies. -/
theorem retained_compute (hf : IsForest idoms p.superRoot) (hall : KnownFrom idoms p.superRoot 0)
    (h0 : 0 < b) (hb : b ≤ p.superRoot) :
    min wordMax ((Retained.compute g p idoms).get b) =
      min wordMax (sumBelow p.superRoot (fun q => g.run.sizeUnits (p.objects.get q))
        fun q => OnChain idoms.get q b) := by
  have hdone : GatheredTo idoms p.superRoot (fun q => g.run.sizeUnits (p.objects.get q))
      (Retained.compute g p idoms) (1 + (p.superRoot - 1)) :=
    (gatheredTo_own hf hall).foldl hf hall Nat.one_pos (by omega)
  have hsum := hdone.sums b h0 hb
  refine hsum.trans (congrArg (min wordMax) (sumBelow_congr fun q _ _ => and_iff_left ?_))
  intro c _ hcb
  omega

/-- No sum outgrows its word, as long as the sizes that are added up fit theirs. -/
theorem retained_le (hown : ∀ b, 0 < b → b < p.superRoot → g.run.sizeUnits (p.objects.get b) ≤ wordMax)
    (b : Nat) : (Retained.compute g p idoms).get b ≤ wordMax := by
  have hfold : ∀ nodes : List Nat, ∀ sizes : Slots, (∀ b, sizes.get b ≤ wordMax) →
      ∀ b, (nodes.foldl (Retained.fold idoms) sizes).get b ≤ wordMax := by
    intro nodes
    induction nodes with
    | nil => exact fun sizes h => h
    | cons n nodes ih =>
      intro sizes h
      apply ih
      intro b
      simp only [Retained.fold, Slots.get_put]
      split
      · exact Nat.min_le_right _ _
      · exact h b
  apply hfold
  intro b
  simp only [Retained.own, get_foldl_put, Slots.get_create]
  split
  · next hb =>
    have hnode := List.mem_range'_1.mp hb.1
    exact hown b (by omega) (by omega)
  · exact Nat.zero_le _

end HeapRetention
