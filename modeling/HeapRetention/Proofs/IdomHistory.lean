import HeapRetention.Proofs.IdomPasses
import HeapRetention.Proofs.VisitSchedule

/-! The idom list at every moment of the passes. A visit needs the larger nodes to be known; in the first
pass they are, as it sweeps from the largest node down, and from then on every node is. -/
namespace HeapRetention

open Fixpoint

/-- A list that is sound and known from `n` on. -/
def SettledFrom (edge : Nat → Nat → Prop) (root : Nat) (idoms : Slots) (n : Nat) : Prop :=
  IsSound edge root idoms ∧ KnownFrom idoms root n

variable {edge : Nat → Nat → Prop} {root n m node : Nat} {x : EdgeIndex} {idoms : Slots}

theorem SettledFrom.mono (h : SettledFrom edge root idoms n) (hnm : n ≤ m) : SettledFrom edge root idoms m :=
  ⟨h.1, fun a hma => h.2 a (Nat.le_trans hnm hma)⟩

theorem SettledFrom.visit (hx : x.Describes edge root) (h : SettledFrom edge root idoms (node + 1)) :
    SettledFrom edge root (visitIdoms x root idoms node) node := by
  obtain ⟨hs, hk, -⟩ := IsSound.visit (f := ⟨idoms, .covering root, {}⟩) hx h.1 h.2
  exact ⟨hs, hk⟩

/-- Once every node is known, a visit of any node leaves it so. -/
theorem SettledFrom.visits (hx : x.Describes edge root) (nodes : List Nat)
    (h : SettledFrom edge root idoms 0) :
    SettledFrom edge root (nodes.foldl (visitIdoms x root) idoms) 0 := by
  induction nodes generalizing idoms with
  | nil => exact h
  | cons node nodes ih =>
    apply ih
    obtain ⟨hs, -, hkept⟩ := IsSound.visit (f := ⟨idoms, .covering root, {}⟩) hx h.1
      (h.mono (Nat.zero_le (node + 1))).2
    exact ⟨hs, fun a hna ha0 har => hkept a (h.2 a hna ha0 har)⟩

theorem SettledFrom.sweep (hx : x.Describes edge root) {base top : Nat} {nodes : List Nat}
    (hsweep : Sweeps root base top nodes) (h : SettledFrom edge root idoms top) :
    SettledFrom edge root (nodes.foldl (visitIdoms x root) idoms) base := by
  induction nodes generalizing top idoms with
  | nil =>
    refine ⟨h.1, fun a hba ha0 har => h.2 a ?_ ha0 har⟩
    by_contra hat
    exact List.not_mem_nil (hsweep.complete a hba (by omega) har)
  | cons n nodes ih =>
    obtain ⟨habove, hrest⟩ := hsweep.of_cons
    have hnext : SettledFrom edge root idoms (n + 1) :=
      ⟨h.1, fun a hna ha0 har => h.2 a (habove a hna har) ha0 har⟩
    exact ih hrest (hnext.visit hx)

theorem get_start (root a : Nat) : (start root).idoms.get a = if root = a then root else 0 := by
  unfold start
  rw [Slots.get_put, Slots.get_create, Slots.capacity_create]
  simp only [Nat.lt_succ_self, and_true]

/-- The list that the passes start from is sound: it knows nothing. -/
theorem isSound_start (edge : Nat → Nat → Prop) (hroot : 0 < root) :
    IsSound edge root (Fixpoint.start root).idoms := by
  have hunknown : ∀ a < root, (Fixpoint.start root).idoms.get a = 0 :=
    fun a ha => by rw [get_start, if_neg (by omega)]
  refine ⟨⟨?_, hroot, hunknown 0 hroot, by rw [get_start, if_pos rfl], ?_, ?_⟩, ?_⟩
  · unfold Fixpoint.start
    rw [Slots.capacity_put]
    exact Nat.lt_succ_self root
  · exact fun a ha hk => absurd (hunknown a ha) hk
  · exact fun a ha hk => absurd (hunknown a ha) hk
  · exact fun a ha hk => absurd (hunknown a ha) hk

/-- Whatever visits the first pass has made, the list is sound; it is settled once they are all made. -/
theorem settled_first_pass (hx : x.Describes edge root) (hroot : 0 < root) {done : List Nat}
    (hdone : done <+: (start root).passSchedule x root) :
    IsSound edge root (idomsAfter x root done) ∧
      (done = (start root).passSchedule x root → SettledFrom edge root (idomsAfter x root done) 0) := by
  obtain ⟨top, htop, hsweep⟩ := sweeps_first_pass x root
  have hstart : SettledFrom edge root (start root).idoms top :=
    ⟨isSound_start edge hroot, fun a hta _ har => absurd (Nat.le_trans htop hta) (Nat.not_le.mpr har)⟩
  constructor
  · obtain ⟨left, hleft⟩ := hdone
    rw [← hleft] at hsweep
    obtain ⟨mid, hmid⟩ := hsweep.of_append
    exact (hstart.sweep hx hmid).1
  · rintro rfl
    exact hstart.sweep hx hsweep

theorem settled_idomsAfter (hx : x.Describes edge root) (hroot : 0 < root) {done : List Nat}
    (hfirst : (start root).passSchedule x root <+: done) :
    SettledFrom edge root (idomsAfter x root done) 0 := by
  obtain ⟨later, rfl⟩ := hfirst
  have hpass := (settled_first_pass hx hroot (List.prefix_refl _)).2 rfl
  unfold idomsAfter at hpass ⊢
  rw [List.foldl_append]
  exact hpass.visits hx later

/-- The list is sound at every moment of the passes. -/
theorem isSound_idomsAfter (hx : x.Describes edge root) (hroot : 0 < root) {done later : List Nat}
    (hdone : done <+: (start root).passSchedule x root ++ later) :
    IsSound edge root (idomsAfter x root done) := by
  rcases List.prefix_or_prefix_of_prefix hdone (List.prefix_append _ later) with hin | hpast
  · exact (settled_first_pass hx hroot hin).1
  · exact (settled_idomsAfter hx hroot hpast).1

/-- Whenever a node comes up, all larger ones are known. -/
theorem settled_visited (hx : x.Describes edge root) (hroot : 0 < root) {done later : List Nat}
    (hdone : done ++ [node] <+: (start root).passSchedule x root ++ later) :
    SettledFrom edge root (idomsAfter x root done) (node + 1) := by
  have hin : done ++ [node] <+: (start root).passSchedule x root →
      SettledFrom edge root (idomsAfter x root done) (node + 1) := by
    rintro ⟨left, hleft⟩
    obtain ⟨top, htop, hsweep⟩ := sweeps_first_pass x root
    rw [← hleft, List.append_assoc] at hsweep
    exact SettledFrom.sweep hx hsweep.before
      ⟨isSound_start edge hroot, fun a hta _ har => absurd (Nat.le_trans htop hta) (Nat.not_le.mpr har)⟩
  rcases List.prefix_or_prefix_of_prefix hdone (List.prefix_append _ later) with hfirst | hpast
  · exact hin hfirst
  · rcases List.prefix_concat_iff.mp hpast with heq | hearlier
    · exact hin (heq ▸ List.prefix_refl _)
    · exact (settled_idomsAfter hx hroot hearlier).mono (Nat.zero_le _)

/-- Whenever the passes end, after the first one at least, every node has an idom that may stand. -/
theorem settled_solve (hx : x.Describes edge root) (hroot : 0 < root) {limit : Nat} (hlimit : 1 ≤ limit) :
    SettledFrom edge root (solve x root limit (Fixpoint.start root)).1.idoms 0 := by
  obtain ⟨later, hlater⟩ := schedules_eq_cons x root (start root) hlimit
  rw [idoms_solve, hlater]
  exact settled_idomsAfter hx hroot (List.prefix_append _ later.flatten)

end HeapRetention
