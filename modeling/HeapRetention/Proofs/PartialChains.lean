import HeapRetention.Proofs.IdomHistory
import HeapRetention.Proofs.PassLists
import Mathlib.Order.Bounds.Basic

/-! Chains in an idom list that is still being filled. An idom that is not known yet ends a chain before it
comes to the super root, so two chains need not meet. A turn of the loop of `intersect` lets the smaller node
climb and leaves the nodes where the chains may meet what they are; the loop ends at the first of them, which is
the nearest common one if there is any. -/
namespace HeapRetention

/-- The chain of `a` comes to `n`. It goes on from a node to the idom of the node as long as that is known; `0`
is no node and stands for an idom that is not known. -/
inductive OnKnownChain (up : Nat → Nat) : Nat → Nat → Prop
  | self (a : Nat) : OnKnownChain up a a
  | step {a n : Nat} (h0 : a ≠ 0) (hk : up a ≠ 0) (h : OnKnownChain up (up a) n) : OnKnownChain up a n

/-- The chain of `a` ends before it comes to `n`. -/
def ChainBelow (up : Nat → Nat) (a n : Nat) : Prop :=
  ∀ c, OnKnownChain up a c → c < n

/-- The nodes where two chains may meet: both come to such a node, or one does and the other ends below it. -/
def meetingPoints (up : Nat → Nat) (a b : Nat) : Set Nat :=
  {n | (OnKnownChain up a n ∧ OnKnownChain up b n) ∨ (OnKnownChain up a n ∧ ChainBelow up b n) ∨
    (ChainBelow up a n ∧ OnKnownChain up b n)}

section
variable {up : Nat → Nat} {a b m n : Nat}

/-- No chain goes on from `0` or from a node whose idom is not known. -/
theorem onKnownChain_of_end (hend : a = 0 ∨ up a = 0) : OnKnownChain up a n ↔ a = n := by
  constructor
  · intro h
    cases h with
    | self _ => rfl
    | step h0 hk _ => exact absurd hend (not_or.mpr ⟨h0, hk⟩)
  · rintro rfl
    exact .self a

/-- While nothing stands as the idom of `0`, a chain of known nodes is what taking idoms again and again
gives. -/
theorem onKnownChain_iff_onChain (hzero : up 0 = 0) (hn : n ≠ 0) : OnKnownChain up a n ↔ OnChain up a n := by
  constructor
  · intro h
    induction h with
    | self a => exact onChain_self up a
    | step _ _ _ ih => exact (ih hn).below
  · rintro ⟨k, hk⟩
    induction k generalizing a with
    | zero =>
      rw [← show a = n from hk]
      exact .self a
    | succ k ih =>
      have hrest := ih hk
      -- once at `0`, taking idoms never leaves it
      have hup : up a ≠ 0 := by
        intro hend
        rw [hend, onKnownChain_of_end (Or.inl rfl)] at hrest
        exact hn hrest.symm
      exact .step (fun h0 => hup (by rw [h0, hzero])) hup hrest

theorem OnKnownChain.trans (h : OnKnownChain up a m) (h' : OnKnownChain up m n) : OnKnownChain up a n := by
  induction h with
  | self _ => exact h'
  | step h0 hk _ ih => exact .step h0 hk (ih h')

/-- Of two nodes that a chain comes to, one comes after the other. -/
theorem OnKnownChain.total (h : OnKnownChain up a m) (h' : OnKnownChain up a n) :
    OnKnownChain up m n ∨ OnKnownChain up n m := by
  induction h with
  | self _ => exact Or.inl h'
  | step h0 hk hrest ih =>
    cases h' with
    | self _ => exact Or.inr (.step h0 hk hrest)
    | step _ _ hrest' => exact ih hrest'

theorem chainBelow_of_end (hend : a = 0 ∨ up a = 0) (hlt : a < n) : ChainBelow up a n := by
  intro c hc
  rwa [← (onKnownChain_of_end hend).mp hc]

/-- Beyond a node its chain is that of its idom. -/
theorem onKnownChain_up (h0 : a ≠ 0) (hlt : a < n) : OnKnownChain up a n ↔ OnKnownChain up (up a) n := by
  by_cases hk : up a = 0
  · -- both chains end below `n`, one at `a` and the other at `0`
    rw [onKnownChain_of_end (Or.inr hk), hk, onKnownChain_of_end (Or.inl rfl)]
    omega
  · constructor
    · intro h
      cases h with
      | self _ => exact absurd hlt (Nat.lt_irrefl a)
      | step _ _ hrest => exact hrest
    · exact .step h0 hk

theorem chainBelow_up (h0 : a ≠ 0) (hlt : a < n) : ChainBelow up a n ↔ ChainBelow up (up a) n := by
  by_cases hk : up a = 0
  · have hnone : ChainBelow up (up a) n := chainBelow_of_end (Or.inl hk) (by omega)
    exact iff_of_true (chainBelow_of_end (Or.inr hk) hlt) hnone
  · constructor
    · exact fun h c hc => h c (.step h0 hk hc)
    · intro h c hc
      cases hc with
      | self _ => exact hlt
      | step _ _ hrest => exact h c hrest

theorem mem_meetingPoints_up (h0 : a ≠ 0) (hlt : a < n) :
    n ∈ meetingPoints up a b ↔ n ∈ meetingPoints up (up a) b := by
  unfold meetingPoints
  rw [Set.mem_ofPred_eq, Set.mem_ofPred_eq, onKnownChain_up h0 hlt, chainBelow_up h0 hlt]

theorem meetingPoints_comm (up : Nat → Nat) (a b : Nat) : meetingPoints up a b = meetingPoints up b a := by
  ext n
  unfold meetingPoints
  rw [Set.mem_ofPred_eq, Set.mem_ofPred_eq]
  tauto

end

/-- An idom list that may still lack any of its idoms: the super root is above itself, and every other known
entry is larger than its index. -/
structure IsPartialForest (idoms : Slots) (root : Nat) : Prop where
  room : root < idoms.capacity
  root_self : idoms.get root = root
  ascends : PassLists.Ascends idoms root

namespace IsPartialForest
open PassLists (climb climb_ok height height_idom height_le)
variable {idoms : Slots} {root a b c n fuel : Nat}

/-- Chains go up, to the super root at most. -/
theorem le_of_onKnownChain (h : IsPartialForest idoms root) (hon : OnKnownChain idoms.get a n) (ha : a ≤ root) :
    a ≤ n ∧ n ≤ root := by
  induction hon with
  | self a => exact ⟨Nat.le_refl a, ha⟩
  | @step a n _ hk _ ih =>
    rcases Nat.eq_or_lt_of_le ha with rfl | hlt
    · -- the super root is above itself
      rw [h.root_self] at ih
      exact ih ha
    · obtain ⟨hup, htop⟩ := h.ascends a hlt hk
      obtain ⟨hge, hle⟩ := ih htop
      exact ⟨by omega, hle⟩

/-- Two chains meet no lower than where they start. -/
theorem le_of_meets (h : IsPartialForest idoms root) (ha : a ≤ root) (hb : b ≤ root)
    (hn : n ∈ meetingPoints idoms.get a b) : a ≤ n ∧ b ≤ n := by
  have hbelow : ∀ c, ChainBelow idoms.get c n → c ≤ n := fun c hc => Nat.le_of_lt (hc c (.self c))
  rcases hn with ⟨hleft, hright⟩ | ⟨hleft, hright⟩ | ⟨hleft, hright⟩
  · exact ⟨(h.le_of_onKnownChain hleft ha).1, (h.le_of_onKnownChain hright hb).1⟩
  · exact ⟨(h.le_of_onKnownChain hleft ha).1, hbelow b hright⟩
  · exact ⟨hbelow a hleft, (h.le_of_onKnownChain hright hb).1⟩

/-- What a turn preserves: the smaller of two nodes climbs, and the chains may meet where they could before. -/
theorem meetingPoints_up (h : IsPartialForest idoms root) (hb : b ≤ root) (h0 : a ≠ 0) (hlt : a < b) :
    meetingPoints idoms.get a b = meetingPoints idoms.get (idoms.get a) b := by
  have hle : idoms.get a ≤ root := (height_idom h.ascends h0 (by omega)).2
  ext n
  constructor
  · intro hn
    have hge := (h.le_of_meets (by omega) hb hn).2
    exact (mem_meetingPoints_up h0 (by omega)).mp hn
  · intro hn
    have hge := (h.le_of_meets hle hb hn).2
    exact (mem_meetingPoints_up h0 (by omega)).mpr hn

/-- A node above the whole chain of another one is where the two chains meet first. -/
theorem isLeast_of_chainBelow (h : IsPartialForest idoms root) (ha : a ≤ root) (hb : b ≤ root)
    (hbelow : ChainBelow idoms.get a b) : IsLeast (meetingPoints idoms.get a b) b :=
  ⟨Or.inr (Or.inr ⟨hbelow, .self b⟩), fun _ hn => (h.le_of_meets ha hb hn).2⟩

/-- The loop ends at the first node where the chains may meet. -/
theorem nearestCommon_isLeast (h : IsPartialForest idoms root) (ha : a ≤ root) (hb : b ≤ root)
    (hfuel : height root a + height root b < fuel) :
    IsLeast (meetingPoints idoms.get a b) (nearestCommon idoms fuel a b) := by
  -- turn by turn; whichever node climbs, the meeting points stay the same
  induction fuel generalizing a b with
  | zero => omega
  | succ fuel ih =>
    rw [nearestCommon]
    by_cases heq : a = b
    · rw [if_pos heq, ← heq]
      exact ⟨Or.inl ⟨.self a, .self a⟩, fun n hn => (h.le_of_meets ha ha hn).1⟩
    rw [if_neg heq]
    by_cases hlt : a < b
    · rw [if_pos hlt]
      by_cases h0 : a = 0
      · rw [if_pos h0]
        exact h.isLeast_of_chainBelow ha hb (chainBelow_of_end (Or.inl h0) hlt)
      · obtain ⟨hless, hle⟩ := height_idom h.ascends h0 (by omega)
        rw [if_neg h0, h.meetingPoints_up hb h0 hlt]
        exact ih hle hb (by omega)
    · rw [if_neg hlt, meetingPoints_comm]
      by_cases h0 : b = 0
      · rw [if_pos h0]
        exact h.isLeast_of_chainBelow hb ha (chainBelow_of_end (Or.inl h0) (by omega))
      · obtain ⟨hless, hle⟩ := height_idom h.ascends h0 (by omega)
        rw [if_neg h0, h.meetingPoints_up ha h0 (by omega), meetingPoints_comm]
        exact ih ha hle (by omega)

theorem intersect_isLeast (h : IsPartialForest idoms root) (ha : a ≤ root) (hb : b ≤ root) :
    IsLeast (meetingPoints idoms.get a b) (intersect idoms root a b) := by
  have hturns := height_le root a
  have hturns' := height_le root b
  exact h.nearestCommon_isLeast ha hb (by omega)

-- The chain of node 2 ends at node 5; that of node 1 goes past there, from node 3 to node 6.
example : intersect { capacity := 7, low := #[0, 3, 5, 6, 0, 0, 6] } 6 1 2 = 6 := by decide

/-- The loop ends by itself. `climb` checks every read and stalls when its turns run out, and neither happens. -/
theorem climb_eq (h : IsPartialForest idoms root) (ha : a ≤ root) (hb : b ≤ root)
    (hfuel : height root a + height root b < fuel) :
    climb idoms fuel a b = .ok (intersect idoms root a b) := by
  obtain ⟨hclimb, -⟩ := climb_ok ⟨⟨h.room, h.room⟩, fun _ _ => rfl⟩ h.ascends ha hb hfuel
  rw [hclimb, (h.nearestCommon_isLeast ha hb hfuel).unique (h.intersect_isLeast ha hb)]

theorem intersect_comm (h : IsPartialForest idoms root) (ha : a ≤ root) (hb : b ≤ root) :
    intersect idoms root a b = intersect idoms root b a := by
  have hswapped := h.intersect_isLeast hb ha
  rw [meetingPoints_comm] at hswapped
  exact (h.intersect_isLeast ha hb).unique hswapped

/-- A chain that shares a node with another one shares all that comes after it, so it does not end below a node
of the other. -/
theorem not_chainBelow (h : IsPartialForest idoms root) (ha : a ≤ root) (hac : OnKnownChain idoms.get a c)
    (hbc : OnKnownChain idoms.get b c) (hn : OnKnownChain idoms.get a n) : ¬ChainBelow idoms.get b n := by
  intro hbelow
  rcases hac.total hn with hcn | hnc
  · exact Nat.lt_irrefl n (hbelow n (hbc.trans hcn))
  · have hge := (h.le_of_onKnownChain hnc (h.le_of_onKnownChain hn ha).2).1
    exact absurd (hbelow c hbc) (Nat.not_lt.mpr hge)

/-- Chains that have a node in common meet in their common nodes only. -/
theorem meetingPoints_eq (h : IsPartialForest idoms root) (ha : a ≤ root) (hb : b ≤ root)
    (hac : OnKnownChain idoms.get a c) (hbc : OnKnownChain idoms.get b c) :
    meetingPoints idoms.get a b = {n | OnKnownChain idoms.get a n ∧ OnKnownChain idoms.get b n} := by
  ext n
  constructor
  · intro hn
    rcases hn with hboth | ⟨hleft, hright⟩ | ⟨hleft, hright⟩
    · exact hboth
    · exact absurd hright (h.not_chainBelow ha hac hbc hleft)
    · exact absurd hleft (h.not_chainBelow hb hbc hac hright)
  · exact Or.inl

end IsPartialForest

namespace Fixpoint
variable {x : EdgeIndex} {edge : Nat → Nat → Prop} {root : Nat}

/-- After any of their visits the passes have such a list. -/
theorem isPartialForest_idomsAfter (hx : x.Describes edge root) (hroot : 0 < root) {done later : List Nat}
    (hdone : done <+: (start root).passSchedule x root ++ later) :
    IsPartialForest (idomsAfter x root done) root := by
  have hforest := (isSound_idomsAfter hx hroot hdone).forest
  exact ⟨hforest.room, hforest.root_self, hforest.climbs⟩

end Fixpoint

open PassLists in
/-- In every idom list, however much of it is known, `intersect` comes to an end: its loop, with every read checked
and stalling when its turns run out, needs no more turns than the two nodes can climb. It gives the smallest node
that is on both chains if both of them come to the super root, and the larger node if the smaller one is none or
has no known idom; the order of the nodes does not matter, and what it gives is no smaller than either of them. -/
theorem intersect_nearest {idoms : Slots} {root a b : Nat} (h : IsPartialForest idoms root) (ha : a ≤ root)
    (hb : b ≤ root) :
    (∀ turns, height root a + height root b < turns →
      climb idoms turns a b = .ok (intersect idoms root a b)) ∧
    (OnKnownChain idoms.get a root → OnKnownChain idoms.get b root →
      IsLeast {n | OnKnownChain idoms.get a n ∧ OnKnownChain idoms.get b n} (intersect idoms root a b)) ∧
    intersect idoms root b a = intersect idoms root a b ∧
    max a b ≤ intersect idoms root a b ∧
    (a = 0 ∨ idoms.get a = 0 → a < b → intersect idoms root a b = b) := by
  have hleast := h.intersect_isLeast ha hb
  refine ⟨fun _ hturns => h.climb_eq ha hb hturns, ?_, h.intersect_comm hb ha, ?_, ?_⟩
  · intro hra hrb
    rwa [h.meetingPoints_eq ha hb hra hrb] at hleast
  · obtain ⟨hleft, hright⟩ := h.le_of_meets ha hb hleast.1
    exact max_le hleft hright
  · intro hend hlt
    exact hleast.unique (h.isLeast_of_chainBelow ha hb (chainBelow_of_end hend hlt))

/-- A list that lacks the idom of node 5, where the chain of node 2 ends. All others come to the super root. -/
def gappedIdoms : Slots where
  capacity := 8
  low := #[0, 3, 5, 6, 6, 0, 7, 7]

theorem gappedIdoms_isPartialForest : IsPartialForest gappedIdoms 7 where
  room := by decide
  root_self := by decide
  ascends := by
    unfold PassLists.Ascends
    decide

open PassLists in
theorem intersect_nearest_gappedIdoms : IsPartialForest gappedIdoms 7 ∧
    height 7 1 + height 7 4 < 12 ∧ climb gappedIdoms 12 1 4 = .ok 6 ∧
    OnChain gappedIdoms.get 1 7 ∧ OnChain gappedIdoms.get 4 7 ∧
    IsLeast {n | OnKnownChain gappedIdoms.get 1 n ∧ OnKnownChain gappedIdoms.get 4 n} 6 ∧
    intersect gappedIdoms 7 4 1 = 6 ∧ max 1 4 ≤ 6 ∧
    gappedIdoms.get 5 = 0 ∧ 5 < 6 ∧ intersect gappedIdoms 7 5 6 = 6 := by
  have hforest := gappedIdoms_isPartialForest
  have hfew : height 7 1 + height 7 4 < 12 := by decide
  have hleft : OnChain gappedIdoms.get 1 7 := ⟨3, by decide⟩
  have hright : OnChain gappedIdoms.get 4 7 := ⟨2, by decide⟩
  have hknown : ∀ a, OnChain gappedIdoms.get a 7 → OnKnownChain gappedIdoms.get a 7 :=
    fun a => (onKnownChain_iff_onChain (by decide) (by decide)).mpr
  have hvalue : intersect gappedIdoms 7 1 4 = 6 := by decide
  obtain ⟨hends, hleast, hcomm, hge, -⟩ := intersect_nearest hforest (a := 1) (b := 4) (by decide) (by decide)
  obtain ⟨-, -, -, -, hunknown⟩ := intersect_nearest hforest (a := 5) (b := 6) (by decide) (by decide)
  rw [hvalue] at hends hleast hcomm hge
  exact ⟨hforest, hfew, hends 12 hfew, hleft, hright, hleast (hknown 1 hleft) (hknown 4 hright), hcomm, hge,
    by decide, by decide, hunknown (Or.inr (by decide)) (by decide)⟩

end HeapRetention
