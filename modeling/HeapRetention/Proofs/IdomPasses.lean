import HeapRetention.Proofs.IdomCandidates

/-! Visits, and what a pass over dirty cards keeps. A visit of a node whose larger nodes are all known
leaves a sound list sound and the node known. The cards only decide which nodes are visited. -/
namespace HeapRetention

variable {edge : Nat → Nat → Prop} {root : Nat} {idoms : Slots} {x : EdgeIndex} {f : Fixpoint} {node : Nat}

namespace Fixpoint

/-- The idom that the predecessors of a node give it. -/
def proposal (x : EdgeIndex) (root : Nat) (idoms : Slots) (node : Nat) : Nat :=
  match x.incoming node with
  | [] => idoms.get node
  | p :: rest => (Meeting.join idoms root ⟨p, 0, 0⟩ rest).idom

/-- An update changes the entry of its node and no other. -/
theorem get_update (hroom : node < f.idoms.capacity) (a : Nat) :
    (f.update x root node).idoms.get a =
      if a = node then proposal x root f.idoms node else f.idoms.get a := by
  unfold update proposal
  cases x.incoming node with
  | nil =>
    dsimp only
    split
    · next he => rw [he]
    · rfl
  | cons p rest =>
    dsimp only
    by_cases hsame : (Meeting.join f.idoms root ⟨p, 0, 0⟩ rest).idom = f.idoms.get node
    · rw [if_pos hsame]
      dsimp only
      split
      · next he => rw [he, hsame]
      · rfl
    · rw [if_neg hsame]
      dsimp only
      rw [Slots.get_put]
      by_cases he : a = node
      · rw [if_pos he, if_pos ⟨he.symm, hroom⟩]
      · rw [if_neg he, if_neg fun h => he h.1.symm]

theorem capacity_update (x : EdgeIndex) (root : Nat) (f : Fixpoint) (node : Nat) :
    (f.update x root node).idoms.capacity = f.idoms.capacity := by
  unfold update
  cases x.incoming node with
  | nil => rfl
  | cons p rest =>
    dsimp only
    split
    · rfl
    · exact Slots.capacity_put _ _ _

end Fixpoint

open Fixpoint

theorem EdgeIndex.Describes.incoming_eq_cons (hx : x.Describes edge root) (h0 : 0 < node)
    (hn : node < root) : ∃ p rest, x.incoming node = p :: rest ∧ node < p ∧ p ≤ root ∧ edge p node ∧
      (∀ u ∈ rest, 0 < u ∧ u ≤ p ∧ edge u node) ∧ ∀ u, edge u node → u = p ∨ u ∈ rest := by
  have hmem := hx.mem_incoming node h0 hn
  have hdesc := hx.descending node h0 hn
  cases hinc : x.incoming node with
  | nil =>
    obtain ⟨u, hu, _⟩ := hx.larger node h0 hn
    rw [hinc] at hmem
    exact absurd ((hmem u).mpr hu) List.not_mem_nil
  | cons p rest =>
    rw [hinc] at hmem hdesc
    have hp : edge p node := (hmem p).mp List.mem_cons_self
    have hall : ∀ u, edge u node → u = p ∨ u ∈ rest := fun u hu => List.mem_cons.mp ((hmem u).mpr hu)
    have hrest := (List.pairwise_cons.mp hdesc).1
    obtain ⟨u, hu, hlt⟩ := hx.larger node h0 hn
    have hup : u ≤ p := by
      rcases hall u hu with rfl | hu
      · exact Nat.le_refl _
      · exact hrest u hu
    refine ⟨p, rest, rfl, by omega, (hx.bounds node h0 hn p hp).2, hp, ?_, hall⟩
    intro u hu
    have he := (hmem u).mp (List.mem_cons_of_mem _ hu)
    exact ⟨(hx.bounds node h0 hn u he).1, hrest u hu, he⟩

/-- What the predecessors propose is met on the chain of each of them that is known, and it is the first
node to be met on all of these chains. -/
theorem proposal_meets (hx : x.Describes edge root) (h : IsForest idoms root) (h0 : 0 < node)
    (hn : node < root) (hk : KnownFrom idoms root (node + 1)) :
    (node < proposal x root idoms node ∧ proposal x root idoms node ≤ root ∧
      idoms.get (proposal x root idoms node) ≠ 0) ∧
    (∃ u, edge u node ∧ u ≤ root ∧ idoms.get u ≠ 0 ∧ OnChain idoms.get u (proposal x root idoms node)) ∧
    (∀ u, edge u node → idoms.get u ≠ 0 → OnChain idoms.get u (proposal x root idoms node)) ∧
    ∀ c, (∀ u, edge u node → idoms.get u ≠ 0 → OnChain idoms.get u c) →
      OnChain idoms.get (proposal x root idoms node) c := by
  obtain ⟨p, rest, hinc, hlt, hle, hp, hrest, hall⟩ := hx.incoming_eq_cons h0 hn
  have hkp : idoms.get p ≠ 0 := hk.of_le_root h hlt (by omega) hle
  obtain ⟨hj1, hj2, hj3⟩ := join_meets h rest ⟨p, 0, 0⟩ hle hkp
    fun u hu => ⟨(hrest u hu).1, (hrest u hu).2.1⟩
  have hprop : proposal x root idoms node = (Meeting.join idoms root ⟨p, 0, 0⟩ rest).idom := by
    unfold proposal
    rw [hinc]
  rw [hprop]
  obtain ⟨hge, htop, hkv⟩ := h.of_onChain hle hkp hj1
  refine ⟨⟨Nat.lt_of_lt_of_le hlt hge, htop, hkv⟩, ⟨p, hp, hle, hkp, hj1⟩, ?_, ?_⟩
  · intro u hu hku
    rcases hall u hu with rfl | hu
    · exact hj1
    · exact hj2 u hu hku
  · intro c hc
    exact hj3 c (hc p hp hkp) fun u hu hku => hc u (hrest u hu).2.2 hku

/-- What the predecessors propose may stand. -/
theorem proposal_candidate (hx : x.Describes edge root) (h : IsSound edge root idoms) (h0 : 0 < node)
    (hn : node < root) (hk : KnownFrom idoms root (node + 1)) :
    IdomCandidate edge root node (proposal x root idoms node) := by
  obtain ⟨⟨hlt, hle, hkv⟩, ⟨u, hu, hur, hku, huv⟩, -, hfirst⟩ := proposal_meets hx h.forest h0 hn hk
  refine ⟨hlt, hle, ?_, ?_⟩
  · exact (h.passage_of_onChain hur hku huv).trans (Passage.single hu (by omega))
  · intro d hne hd
    have hon : OnChain idoms.get (proposal x root idoms node) d := by
      refine hfirst d fun w hw hkw => h.onChain_of_dominates ?_ hkw (dominates_pred hw hd hne)
      exact (hx.bounds node h0 hn w hw).2
    exact (h.forest.of_onChain hle hkv hon).1

/-- The heart of the passes: an update keeps the list sound and whatever is known known. -/
theorem IsSound.update (hx : x.Describes edge root) (h : IsSound edge root f.idoms) (h0 : 0 < node)
    (hn : node < root) (hk : KnownFrom f.idoms root (node + 1)) :
    IsSound edge root (f.update x root node).idoms ∧ (f.update x root node).idoms.get node ≠ 0 ∧
      ∀ a, f.idoms.get a ≠ 0 → (f.update x root node).idoms.get a ≠ 0 := by
  have hroom : node < f.idoms.capacity := Nat.lt_trans hn h.forest.room
  have hget : ∀ a, (f.update x root node).idoms.get a =
      if a = node then proposal x root f.idoms node else f.idoms.get a := get_update hroom
  have hcand := proposal_candidate hx h h0 hn hk
  obtain ⟨⟨hlt, hle, hkv⟩, -, -, -⟩ := proposal_meets hx h.forest h0 hn hk
  have hnode : (f.update x root node).idoms.get node ≠ 0 := by
    rw [hget, if_pos rfl]
    omega
  have hknown : ∀ a, f.idoms.get a ≠ 0 → (f.update x root node).idoms.get a ≠ 0 := by
    intro a ha
    rw [hget]
    split
    · omega
    · exact ha
  -- the list has changed at this node only, which has its proposal now
  refine ⟨{ forest := ?_, candidate := fun a ha hka => ?_ }, hnode, hknown⟩
  · exact {
      room := by
        rw [capacity_update]
        exact h.forest.room
      root_pos := h.forest.root_pos
      zero := by rw [hget, if_neg (by omega), h.forest.zero]
      root_self := by rw [hget, if_neg (by omega), h.forest.root_self]
      climbs := fun a ha hka => by
        rw [hget] at hka ⊢
        by_cases he : a = node
        · rw [if_pos he, he]
          exact ⟨hlt, hle⟩
        · rw [if_neg he] at hka ⊢
          exact h.forest.climbs a ha hka
      closed := fun a ha hka => by
        apply hknown
        rw [hget] at hka ⊢
        by_cases he : a = node
        · rw [if_pos he]
          exact hkv
        · rw [if_neg he] at hka ⊢
          exact h.forest.closed a ha hka }
  · rw [hget] at hka ⊢
    by_cases he : a = node
    · rw [if_pos he, he]
      exact hcand
    · rw [if_neg he] at hka ⊢
      exact h.candidate a ha hka

/-- A visit leaves out nodes that are none and nodes right below the super root. -/
theorem IsSound.visit (hx : x.Describes edge root) (h : IsSound edge root f.idoms)
    (hk : KnownFrom f.idoms root (node + 1)) :
    IsSound edge root (f.visit x root node).idoms ∧ KnownFrom (f.visit x root node).idoms root node ∧
      ∀ a, f.idoms.get a ≠ 0 → (f.visit x root node).idoms.get a ≠ 0 := by
  unfold Fixpoint.visit
  by_cases hskip : node = 0 ∨ root ≤ node ∨ f.idoms.get node = root
  · rw [if_pos hskip]
    refine ⟨h, fun a hna ha0 har => ?_, fun _ ha => ha⟩
    by_cases he : a = node
    · rcases hskip with h0 | h0 | h0
      · omega
      · omega
      · rw [he, h0]
        omega
    · exact hk a (by omega) ha0 har
  · rw [if_neg hskip]
    obtain ⟨hs, hnode, hknown⟩ := h.update hx (by omega) (by omega) hk
    refine ⟨hs, fun a hna ha0 har => ?_, hknown⟩
    by_cases he : a = node
    · rw [he]
      exact hnode
    · exact hknown a (hk a (by omega) ha0 har)

end HeapRetention
