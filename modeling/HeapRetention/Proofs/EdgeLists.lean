import HeapRetention.Proofs.CardBits
import HeapRetention.Proofs.DepthFirst
import HeapRetention.Proofs.IdomCandidates
import HeapRetention.Proofs.RootSearch

/-! The edge index holds the edges of the numbered graph. Nodes are added in ascending order and every one
goes to the front of its successors' lists, so the lists come out in descending order; the super root, which
is added last, stands before all. -/
namespace HeapRetention

/-- An edge of the numbered graph. The super root leads to the roots, a node to what its object leads to. -/
def Postorder.Edge (p : Postorder) (g : FlowGraph) (a b : Nat) : Prop :=
  (a = p.superRoot ∧ ∃ id ∈ g.roots, p.numbers.get id = b) ∨
    (a ≠ 0 ∧ ∃ u, p.numbers.get u = a ∧ ∃ t ∈ g.targets u, p.numbers.get t = b)

namespace EdgeIndex

theorem size_foldl_modify (ps : Array (List Nat)) (node : Nat) (ss : List Nat) :
    (ss.foldl (fun ps s => ps.modify s (node :: ·)) ps).size = ps.size := by
  induction ss generalizing ps with
  | nil => rfl
  | cons s ss ih => exact (ih _).trans Array.size_modify

theorem getD_foldl_modify (ps : Array (List Nat)) (node : Nat) (ss : List Nat) {a : Nat} (ha : a < ps.size) :
    (ss.foldl (fun ps s => ps.modify s (node :: ·)) ps).getD a [] =
      List.replicate (ss.count a) node ++ ps.getD a [] := by
  induction ss generalizing ps with
  | nil => rfl
  | cons s ss ih =>
    rw [List.foldl_cons, ih _ (by rwa [Array.size_modify]), CardTable.getD_modify]
    by_cases hs : s = a
    · subst hs
      rw [if_pos ⟨rfl, ha⟩, List.count_cons_self, List.replicate_succ', List.append_assoc]
      rfl
    · rw [if_neg fun h => hs h.1, List.count_cons_of_ne hs]

/-- The super root comes to the front of the lists of the nodes that pass the test. -/
theorem getD_foldl_modify_if (ps : Array (List Nat)) (top : Nat) (test : Nat → Bool) {nodes : List Nat}
    (hnodup : nodes.Nodup) {a : Nat} (ha : a < ps.size) :
    (nodes.foldl (fun ps node => if test node then ps.modify node (top :: ·) else ps) ps).getD a [] =
      if a ∈ nodes ∧ test a = true then top :: ps.getD a [] else ps.getD a [] := by
  induction nodes generalizing ps with
  | nil => exact (if_neg fun h => List.not_mem_nil h.1).symm
  | cons s nodes ih =>
    obtain ⟨hs, hnodes⟩ := List.nodup_cons.mp hnodup
    have hsize : a < (if test s = true then ps.modify s (top :: ·) else ps).size := by
      split
      · rwa [Array.size_modify]
      · exact ha
    rw [List.foldl_cons, ih _ hnodes hsize]
    by_cases he : s = a
    · subst he
      rw [if_neg fun h => hs h.1]
      by_cases ht : test s = true
      · rw [if_pos ht, if_pos ⟨List.mem_cons_self, ht⟩, CardTable.getD_modify, if_pos ⟨rfl, ha⟩]
      · rw [if_neg ht, if_neg fun h => ht h.2]
    · have hkeep : (if test s = true then ps.modify s (top :: ·) else ps).getD a [] = ps.getD a [] := by
        by_cases ht : test s = true
        · rw [if_pos ht, CardTable.getD_modify, if_neg fun h => he h.1]
        · rw [if_neg ht]
      have hmem : a ∈ s :: nodes ↔ a ∈ nodes := by
        rw [List.mem_cons, or_iff_right fun h => he h.symm]
      simp only [hkeep, hmem]

/-- The lists once the nodes below `n` are added. -/
structure Filled (x : EdgeIndex) (g : FlowGraph) (p : Postorder) (n : Nat) : Prop where
  size : x.predecessors.size = p.superRoot + 1
  mem : ∀ a ≤ p.superRoot, ∀ u, u ∈ x.incoming a ↔
    0 < u ∧ u < n ∧ ∃ t ∈ g.targets (p.objects.get u), p.numbers.get t = a
  descending : ∀ a ≤ p.superRoot, (x.incoming a).Pairwise (· ≥ ·)

variable {g : FlowGraph} {p : Postorder} {cards : CardTable} {x y : EdgeIndex} {n : Nat}

theorem incoming_empty (superRoot a : Nat) : (EdgeIndex.empty superRoot).incoming a = [] := by
  change (Array.replicate (superRoot + 1) []).getD a [] = []
  rw [Array.getD_eq_getD_getElem?, Array.getElem?_replicate]
  split <;> rfl

/-- A node comes to the front of the lists of its successors. -/
theorem incoming_addNode (x : EdgeIndex) (cards : CardTable) (n : Nat) (ss : List Nat) {a : Nat}
    (ha : a < x.predecessors.size) :
    (x.addNode cards n ss).incoming a = List.replicate (ss.count a) n ++ x.incoming a :=
  getD_foldl_modify _ _ _ ha

theorem cardsAfter_addNode (x : EdgeIndex) (cards : CardTable) (ss : List Nat) (a : Nat)
    (hn : n < x.successorCards.size) :
    (x.addNode cards n ss).cardsAfter a = if n = a then ss.map cards.cardOf else x.cardsAfter a := by
  refine (CardTable.getD_modify x.successorCards n a _ []).trans ?_
  simp only [hn, and_true]
  rfl

theorem incoming_addRoots (hsize : y.predecessors.size = p.superRoot + 1) {a : Nat} (h0 : 0 < a)
    (hlt : a < p.superRoot) : (y.addRoots g p).incoming a =
      if FlowGraph.contains g.roots.toArray (p.objects.get a) = true then p.superRoot :: y.incoming a
      else y.incoming a := by
  have hmem : a ∈ List.range' 1 (p.superRoot - 1) := List.mem_range'_1.mpr ⟨h0, by omega⟩
  refine (getD_foldl_modify_if y.predecessors p.superRoot
    (fun node => FlowGraph.contains g.roots.toArray (p.objects.get node)) List.nodup_range'
    (by rw [hsize]; omega)).trans ?_
  simp only [hmem, true_and]
  rfl

theorem filled_empty (g : FlowGraph) (p : Postorder) : (EdgeIndex.empty p.superRoot).Filled g p 1 := by
  refine ⟨Array.size_replicate, fun a _ u => ?_, fun a _ => ?_⟩
  · rw [incoming_empty]
    exact iff_of_false List.not_mem_nil fun h => by omega
  · rw [incoming_empty]
    exact List.Pairwise.nil

theorem Filled.addNode (h : x.Filled g p n) (hn : 0 < n) (cards : CardTable) :
    (x.addNode cards n ((g.targets (p.objects.get n)).map p.numbers.get)).Filled g p (n + 1) := by
  generalize hss : (g.targets (p.objects.get n)).map p.numbers.get = ss
  have hin : ∀ a ≤ p.superRoot, (x.addNode cards n ss).incoming a =
      List.replicate (ss.count a) n ++ x.incoming a :=
    fun a ha => incoming_addNode x cards n ss (by rw [h.size]; omega)
  have hmem : ∀ a, a ∈ ss ↔ ∃ t ∈ g.targets (p.objects.get n), p.numbers.get t = a := by
    intro a
    rw [← hss, List.mem_map]
  refine ⟨(size_foldl_modify _ _ _).trans h.size, fun a ha u => ?_, fun a ha => ?_⟩
  · rw [hin a ha, List.mem_append, List.mem_replicate, h.mem a ha]
    constructor
    · rintro (⟨hne, rfl⟩ | ⟨h0, hlt, ht⟩)
      · refine ⟨hn, Nat.lt_succ_self u, (hmem a).mp ?_⟩
        exact List.count_pos_iff.mp (Nat.pos_of_ne_zero hne)
      · exact ⟨h0, by omega, ht⟩
    · rintro ⟨h0, hlt, ht⟩
      rcases Nat.lt_succ_iff_lt_or_eq.mp hlt with hlt | rfl
      · exact Or.inr ⟨h0, hlt, ht⟩
      · have := List.count_pos_iff.mpr ((hmem a).mpr ht)
        exact Or.inl ⟨by omega, rfl⟩
  · rw [hin a ha, List.pairwise_append]
    refine ⟨List.pairwise_replicate.mpr (Or.inr (Nat.le_refl n)), h.descending a ha, ?_⟩
    intro u hu v hv
    have := (List.mem_replicate.mp hu).2
    have := ((h.mem a ha v).mp hv).2.1
    omega

theorem Filled.addNodes (h : x.Filled g p n) (hn : 0 < n) {count : Nat}
    (hrun : EdgeIndex.addNodes g p cards x (List.range' n count) = .ok y) : y.Filled g p (n + count) := by
  induction count generalizing x n with
  | zero =>
    cases hrun
    exact h
  | succ count ih =>
    rw [List.range'_succ, EdgeIndex.addNodes] at hrun
    split at hrun
    · cases hrun
    · next successors hsucc =>
      rw [FlowGraph.targets_of_successors hsucc] at hrun
      have hdone := ih (h.addNode hn cards) (Nat.succ_pos n) hrun
      rwa [show n + 1 + count = n + (count + 1) by omega] at hdone

end EdgeIndex

namespace Postorder.Numbers
variable {g : FlowGraph} {p : Postorder} {a : Nat} {id : ObjectId}

theorem eq_object_iff (hp : p.Numbers g) (h0 : 0 < a) (hlt : a < p.superRoot) :
    p.numbers.get id = a ↔ id = p.objects.get a := by
  constructor
  · intro he
    have hback := hp.object_number id (by omega)
    rw [he] at hback
    exact hback.symm
  · rintro rfl
    exact hp.number_object a h0 hlt

theorem exists_root_iff (hp : p.Numbers g) (h0 : 0 < a) (hlt : a < p.superRoot) :
    (∃ id ∈ g.roots, p.numbers.get id = a) ↔ p.objects.get a ∈ g.roots := by
  constructor
  · rintro ⟨id, hid, he⟩
    exact (hp.eq_object_iff h0 hlt).mp he ▸ hid
  · exact fun hid => ⟨_, hid, hp.number_object a h0 hlt⟩

theorem edge_bounds (hp : p.Numbers g) {b : Nat} (he : p.Edge g a b) : 0 < b ∧ b < p.superRoot := by
  rcases he with ⟨-, id, hid, rfl⟩ | ⟨hne, u, rfl, t, ht, rfl⟩
  · exact ⟨Nat.pos_of_ne_zero (hp.roots id hid), hp.number_lt id⟩
  · exact ⟨Nat.pos_of_ne_zero (hp.targets u hne t ht), hp.number_lt t⟩

end Postorder.Numbers

namespace EdgeIndex
variable {g : FlowGraph} {p : Postorder} {cards : CardTable} {x y : EdgeIndex} {a u : Nat}

/-- With all nodes added the lists have the edges between objects. -/
theorem Filled.mem_incoming_iff (h : y.Filled g p p.superRoot) (hp : p.Numbers g) (hlt : a < p.superRoot) :
    u ∈ y.incoming a ↔ u ≠ 0 ∧ ∃ v, p.numbers.get v = u ∧ ∃ t ∈ g.targets v, p.numbers.get t = a := by
  rw [h.mem a (Nat.le_of_lt hlt)]
  constructor
  · rintro ⟨hu0, hult, ht⟩
    exact ⟨by omega, _, hp.number_object u hu0 hult, ht⟩
  · rintro ⟨hne, v, hv, ht⟩
    have hult := hv ▸ hp.number_lt v
    have hu0 : 0 < u := by omega
    exact ⟨hu0, hult, (hp.eq_object_iff hu0 hult).mp hv ▸ ht⟩

/-- The super root comes first in the lists of the nodes that it leads to. -/
theorem Filled.incoming_addRoots (h : y.Filled g p p.superRoot) (hroots : g.roots.Pairwise (· < ·))
    (h0 : 0 < a) (hlt : a < p.superRoot) : (y.addRoots g p).incoming a =
      if p.objects.get a ∈ g.roots then p.superRoot :: y.incoming a else y.incoming a := by
  rw [EdgeIndex.incoming_addRoots h.size h0 hlt]
  simp only [FlowGraph.contains_iff hroots]

/-- The finished index describes the edges of the numbered graph. -/
theorem describes_ofGraph (hp : p.Numbers g) (hroots : g.roots.Pairwise (· < ·))
    (hrun : EdgeIndex.ofGraph g p cards = .ok x) : x.Describes (p.Edge g) p.superRoot := by
  unfold EdgeIndex.ofGraph at hrun
  split at hrun
  · cases hrun
  · next y hy =>
    cases hrun
    have hpos := hp.superRoot_pos
    have hfilled := (filled_empty g p).addNodes Nat.one_pos hy
    rw [show 1 + (p.superRoot - 1) = p.superRoot by omega] at hfilled
    have hbelow : ∀ a, a < p.superRoot → ∀ u ∈ y.incoming a, 0 < u ∧ u < p.superRoot := by
      intro a hlt u hu
      obtain ⟨hu0, hult, -⟩ := (hfilled.mem a (Nat.le_of_lt hlt) u).mp hu
      exact ⟨hu0, hult⟩
    exact {
      mem_incoming := fun a h0 hlt u => by
        -- an edge comes from the super root or from a node
        unfold Postorder.Edge
        rw [hfilled.incoming_addRoots hroots h0 hlt, hp.exists_root_iff h0 hlt,
          ← hfilled.mem_incoming_iff hp hlt]
        split
        · next hr => rw [List.mem_cons, and_iff_left hr]
        · next hr => rw [or_iff_right fun h => hr h.2]
      descending := fun a h0 hlt => by
        rw [hfilled.incoming_addRoots hroots h0 hlt]
        split
        · refine List.pairwise_cons.mpr ⟨fun u hu => ?_, hfilled.descending a (Nat.le_of_lt hlt)⟩
          exact Nat.le_of_lt (hbelow a hlt u hu).2
        · exact hfilled.descending a (Nat.le_of_lt hlt)
      bounds := fun a h0 hlt u he => by
        rcases he with ⟨rfl, -⟩ | he
        · exact ⟨hpos, Nat.le_refl _⟩
        · obtain ⟨hu0, hult⟩ := hbelow a hlt u ((hfilled.mem_incoming_iff hp hlt).mpr he)
          exact ⟨hu0, Nat.le_of_lt hult⟩
      larger := fun a h0 hlt => by
        -- every node has a predecessor above it: the one that the search came from
        have hnum := hp.number_object a h0 hlt
        rcases hp.parent (p.objects.get a) (by omega) with hr | ⟨u, hu, hlarger⟩
        · exact ⟨p.superRoot, Or.inl ⟨rfl, (hp.exists_root_iff h0 hlt).mpr hr⟩, hlt⟩
        · rw [hnum] at hlarger
          exact ⟨p.numbers.get u, Or.inr ⟨by omega, u, rfl, _, hu, hnum⟩, hlarger⟩ }

end EdgeIndex
end HeapRetention
