import HeapRetention.Dominance.Fixpoint
import Mathlib.Logic.Function.Iterate
import Mathlib.Order.Basic

/-! The chains that immediate dominators make. An idom list is a forest: every known entry is larger than
its index and is known itself, so its chain ends at the super root. Where two chains meet is computed by
letting the smaller node climb. -/
namespace HeapRetention

/-- `d` is met on the way up from `a`. -/
def OnChain (up : Nat → Nat) (a d : Nat) : Prop :=
  ∃ k, up^[k] a = d

section
variable {up : Nat → Nat} {a b d : Nat}

theorem onChain_self (up : Nat → Nat) (a : Nat) : OnChain up a a :=
  ⟨0, rfl⟩

theorem OnChain.below (h : OnChain up (up a) d) : OnChain up a d := by
  obtain ⟨k, hk⟩ := h
  exact ⟨k + 1, hk⟩

theorem onChain_iff : OnChain up a d ↔ a = d ∨ OnChain up (up a) d := by
  constructor
  · rintro ⟨k, hk⟩
    cases k with
    | zero => exact Or.inl hk
    | succ k => exact Or.inr ⟨k, hk⟩
  · rintro (rfl | h)
    · exact onChain_self up a
    · exact h.below

/-- A chain that has not met a node yet meets it further up. -/
theorem OnChain.above (h : OnChain up a d) (hne : a ≠ d) : OnChain up (up a) d := by
  rcases onChain_iff.mp h with he | hup
  · exact absurd he hne
  · exact hup

theorem OnChain.trans (h : OnChain up a b) (h' : OnChain up b d) : OnChain up a d := by
  obtain ⟨k, rfl⟩ := h
  obtain ⟨m, rfl⟩ := h'
  exact ⟨m + k, Function.iterate_add_apply up m k a⟩

end

/-- The idoms known so far: `0` where none is, the super root above itself, and every other known entry
larger than its index and known as well. -/
structure IsForest (idoms : Slots) (root : Nat) : Prop where
  room : root < idoms.capacity
  root_pos : 0 < root
  zero : idoms.get 0 = 0
  root_self : idoms.get root = root
  climbs : ∀ a < root, idoms.get a ≠ 0 → a < idoms.get a ∧ idoms.get a ≤ root
  closed : ∀ a < root, idoms.get a ≠ 0 → idoms.get (idoms.get a) ≠ 0

namespace IsForest
variable {idoms : Slots} {root a b d : Nat}

theorem root_known (h : IsForest idoms root) : idoms.get root ≠ 0 := by
  rw [h.root_self]
  have := h.root_pos
  omega

/-- Induction down the chains, from the super root on. -/
theorem induction_down (h : IsForest idoms root) {P : Nat → Prop} (top : P root)
    (step : ∀ a, 0 < a → a < root → idoms.get a ≠ 0 → P (idoms.get a) → P a) :
    ∀ a, a ≤ root → idoms.get a ≠ 0 → P a := by
  -- the distance to the super root shrinks with every step up
  suffices hn : ∀ n a, a ≤ root → root - a = n → idoms.get a ≠ 0 → P a from
    fun a hle hk => hn (root - a) a hle rfl hk
  intro n
  induction n using Nat.strongRecOn with
  | ind n ih =>
    intro a hle hn hk
    rcases Nat.eq_or_lt_of_le hle with rfl | hlt
    · exact top
    · obtain ⟨hup, htop⟩ := h.climbs a hlt hk
      have ha : 0 < a := by
        rcases Nat.eq_zero_or_pos a with rfl | hpos
        · exact absurd h.zero hk
        · exact hpos
      exact step a ha hlt hk (ih (root - idoms.get a) (by omega) _ htop rfl (h.closed a hlt hk))

theorem reaches_root (h : IsForest idoms root) (hle : a ≤ root) (hk : idoms.get a ≠ 0) :
    OnChain idoms.get a root := by
  refine h.induction_down (P := fun a => OnChain idoms.get a root) (onChain_self _ _) ?_ a hle hk
  intro a _ _ _ ih
  exact ih.below

/-- Whatever a chain meets is known, and no smaller than where the chain starts. -/
theorem of_onChain (h : IsForest idoms root) (hle : a ≤ root) (hk : idoms.get a ≠ 0)
    (hd : OnChain idoms.get a d) : a ≤ d ∧ d ≤ root ∧ idoms.get d ≠ 0 := by
  obtain ⟨k, rfl⟩ := hd
  induction k generalizing a with
  | zero => exact ⟨Nat.le_refl a, hle, hk⟩
  | succ k ih =>
    rcases Nat.eq_or_lt_of_le hle with rfl | hlt
    · have hr := ih hle hk
      rwa [Function.iterate_succ_apply, h.root_self]
    · obtain ⟨hup, htop⟩ := h.climbs a hlt hk
      obtain ⟨h1, h2, h3⟩ := ih htop (h.closed a hlt hk)
      exact ⟨by rw [Function.iterate_succ_apply]; omega, h2, h3⟩

end IsForest

/-- The node where two chains meet: both lead to it, and whatever both meet is met from there. -/
structure Meets (up : Nat → Nat) (a b r : Nat) : Prop where
  left : OnChain up a r
  right : OnChain up b r
  closest : ∀ c, OnChain up a c → OnChain up b c → OnChain up r c

theorem meets_self (up : Nat → Nat) (a : Nat) : Meets up a a a :=
  ⟨onChain_self up a, onChain_self up a, fun _ h _ => h⟩

variable {idoms : Slots} {root : Nat}

theorem nearestCommon_meets (h : IsForest idoms root) (fuel a b : Nat) (ha : a ≤ root) (hb : b ≤ root)
    (hka : idoms.get a ≠ 0) (hkb : idoms.get b ≠ 0) (hfuel : (root - a) + (root - b) < fuel) :
    Meets idoms.get a b (nearestCommon idoms fuel a b) := by
  induction fuel generalizing a b with
  | zero => omega
  | succ fuel ih =>
    unfold nearestCommon
    by_cases heq : a = b
    · rw [if_pos heq, ← heq]
      exact meets_self _ _
    rw [if_neg heq]
    by_cases hlt : a < b
    · have h0 : a ≠ 0 := fun h0 => hka (by rw [h0, h.zero])
      obtain ⟨hup, htop⟩ := h.climbs a (by omega) hka
      have hm := ih (idoms.get a) b htop hb (h.closed a (by omega) hka) hkb (by omega)
      rw [if_pos hlt, if_neg h0]
      refine ⟨hm.left.below, hm.right, fun c hca hcb => hm.closest c ?_ hcb⟩
      exact hca.above (by have := h.of_onChain hb hkb hcb; omega)
    · have h0 : b ≠ 0 := fun h0 => hkb (by rw [h0, h.zero])
      obtain ⟨hup, htop⟩ := h.climbs b (by omega) hkb
      have hm := ih a (idoms.get b) ha htop hka (h.closed b (by omega) hkb) (by omega)
      rw [if_neg hlt, if_neg h0]
      refine ⟨hm.left, hm.right.below, fun c hca hcb => hm.closest c hca ?_⟩
      exact hcb.above (by have := h.of_onChain ha hka hca; omega)

/-- The chains of two known nodes are followed to the node where they meet. -/
theorem intersect_meets (h : IsForest idoms root) {a b : Nat} (ha : a ≤ root) (hb : b ≤ root)
    (hka : idoms.get a ≠ 0) (hkb : idoms.get b ≠ 0) :
    Meets idoms.get a b (intersect idoms root a b) :=
  nearestCommon_meets h _ a b ha hb hka hkb (by omega)

/-- A node without a known idom counts for nothing beside a larger one. -/
theorem intersect_unknown {a b : Nat} (hle : b ≤ a) (hka : idoms.get a ≠ 0) (hkb : idoms.get b = 0)
    (ha : 0 < a) : intersect idoms root a b = a := by
  have hne : a ≠ b := fun he => hka (by rw [he, hkb])
  unfold intersect nearestCommon
  rw [if_neg hne, if_neg (by omega)]
  by_cases h0 : b = 0
  · rw [if_pos h0]
  · rw [if_neg h0, hkb]
    unfold nearestCommon
    rw [if_neg (by omega), if_neg (by omega), if_pos rfl]

end HeapRetention
