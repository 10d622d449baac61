import HeapRetention.Proofs.WalkEdges
import Mathlib.Data.List.Basic

/-! Who has claimed what. A claim gives an object its parent and puts it on the frontier, and nothing takes
a parent away again, so every claimed object is in one place: visited, on the frontier, held back for a
later phase, or spared for good. Following references, releasing edges and claiming roots all keep this
ledger. -/
namespace HeapRetention

namespace Run
variable {r r' r'' : Run} {id v parent : ObjectId}

/-- An object that some other object, or the object itself, has claimed. -/
def IsClaimed (r : Run) (id : ObjectId) : Prop :=
  r.isValid id = true ∧ r.parents.get id ≠ 0

/-- Two runs that agree in all but who claimed what. -/
def SameVisits (r r' : Run) : Prop :=
  ∃ parents roles, r' = { r with parents := parents, roles := roles }

theorem SameVisits.refl (r : Run) : SameVisits r r :=
  ⟨r.parents, r.roles, rfl⟩

theorem SameVisits.trans (h : SameVisits r r') (h' : SameVisits r' r'') : SameVisits r r'' := by
  obtain ⟨_, _, rfl⟩ := h
  obtain ⟨parents, roles, rfl⟩ := h'
  exact ⟨parents, roles, rfl⟩

theorem isValid_iff (r : Run) (id : ObjectId) : r.isValid id = true ↔ InHeap r.objectCount id := by
  unfold isValid InHeap
  rw [Bool.and_eq_true, bne_iff_ne, decide_eq_true_iff, Nat.pos_iff_ne_zero]

theorem isUnclaimed_iff (r : Run) (id : ObjectId) :
    r.isUnclaimed id = true ↔ r.isValid id = true ∧ ¬r.IsClaimed id := by
  unfold isUnclaimed IsClaimed
  rw [Bool.and_eq_true, beq_iff_eq]
  constructor
  · rintro ⟨hv, h0⟩
    exact ⟨hv, fun h => h.2 h0⟩
  · rintro ⟨hv, hn⟩
    exact ⟨hv, Decidable.byContradiction fun h => hn ⟨hv, h⟩⟩

theorem isClaimed_claim (hcap : r.parents.capacity = r.objectCount + 2) (hid : r.isValid id = true)
    (hp : parent ≠ 0) : (r.claim id parent).IsClaimed v ↔ r.IsClaimed v ∨ v = id := by
  obtain ⟨-, hle⟩ := (r.isValid_iff id).mp hid
  have hget : (r.parents.put id parent).get v = if id = v then parent else r.parents.get v := by
    rw [Slots.get_put, hcap]
    simp only [Nat.lt_add_right 1 (Nat.lt_succ_of_le hle), and_true]
  change r.isValid v = true ∧ (r.parents.put id parent).get v ≠ 0 ↔ _
  rw [hget]
  by_cases he : id = v
  · subst he
    rw [if_pos rfl]
    exact iff_of_true ⟨hid, hp⟩ (Or.inr rfl)
  · rw [if_neg he, or_iff_left fun h => he h.symm]
    exact Iff.rfl

end Run

/-- The place of every claimed object: visited, open, held back, or spared. -/
structure Ledger (r : Run) (count : Nat) (seen opened held : List ObjectId) (spared : ObjectId → Prop) :
    Prop where
  objectCount : r.objectCount = count
  capacity : r.parents.capacity = count + 2
  nodup : (seen ++ (opened ++ held)).Nodup
  claimed : ∀ id ∈ seen ++ (opened ++ held), r.IsClaimed id
  covered : ∀ id, r.IsClaimed id → id ∈ seen ++ (opened ++ held) ∨ spared id

namespace Ledger
variable {r : Run} {count : Nat} {seen opened opened' held : List ObjectId} {spared : ObjectId → Prop}
  {id v parent : ObjectId}

theorem valid_iff (h : Ledger r count seen opened held spared) (id : ObjectId) :
    r.isValid id = true ↔ InHeap count id := by
  rw [r.isValid_iff, h.objectCount]

theorem perm (h : Ledger r count seen opened held spared) (hp : opened.Perm opened') :
    Ledger r count seen opened' held spared := by
  have hall : (seen ++ (opened ++ held)).Perm (seen ++ (opened' ++ held)) :=
    (hp.append_right held).append_left seen
  exact { h with
    nodup := hall.nodup_iff.mp h.nodup
    claimed := fun id hid => h.claimed id (hall.mem_iff.mpr hid)
    covered := fun id hid => (h.covered id hid).imp_left hall.mem_iff.mp }

theorem claim (h : Ledger r count seen opened held spared) (hid : r.isUnclaimed id = true)
    (hp : parent ≠ 0) : Ledger (r.claim id parent) count seen (id :: opened) held spared := by
  obtain ⟨hv, hn⟩ := (r.isUnclaimed_iff id).mp hid
  have hiff : ∀ v, (r.claim id parent).IsClaimed v ↔ r.IsClaimed v ∨ v = id :=
    fun v => Run.isClaimed_claim (by rw [h.capacity, h.objectCount]) hv hp
  have hperm : (seen ++ (id :: opened ++ held)).Perm (id :: (seen ++ (opened ++ held))) :=
    List.perm_middle
  exact {
    objectCount := h.objectCount
    capacity := (Slots.capacity_put _ _ _).trans h.capacity
    nodup := by
      rw [hperm.nodup_iff, List.nodup_cons]
      exact ⟨fun hin => hn (h.claimed id hin), h.nodup⟩
    claimed := fun v hin => by
      rw [hiff]
      rcases List.mem_cons.mp (hperm.mem_iff.mp hin) with rfl | hin
      · exact Or.inr rfl
      · exact Or.inl (h.claimed v hin)
    covered := fun v hc => by
      rcases (hiff v).mp hc with hc | rfl
      · exact (h.covered v hc).imp_left fun hin => hperm.mem_iff.mpr (List.mem_cons_of_mem id hin)
      · exact Or.inl (hperm.mem_iff.mpr List.mem_cons_self) }

theorem isClaimed_claim_iff (h : Ledger r count seen opened held spared) (hid : r.isUnclaimed id = true)
    (hp : parent ≠ 0) : (r.claim id parent).IsClaimed v ↔ r.IsClaimed v ∨ (v = id ∧ InHeap count v) := by
  obtain ⟨hv, -⟩ := (r.isUnclaimed_iff id).mp hid
  rw [Run.isClaimed_claim (by rw [h.capacity, h.objectCount]) hv hp]
  refine or_congr_right ⟨?_, fun h => h.1⟩
  rintro rfl
  exact ⟨rfl, (h.valid_iff v).mp hv⟩

/-- An object that cannot be claimed any more adds nothing to what is claimed. -/
theorem isClaimed_iff_or (h : Ledger r count seen opened held spared) (hid : ¬r.isUnclaimed id = true) :
    r.IsClaimed v ↔ r.IsClaimed v ∨ (v = id ∧ InHeap count v) := by
  refine (or_iff_left_of_imp ?_).symm
  rintro ⟨rfl, hv⟩
  by_contra hn
  exact hid ((r.isUnclaimed_iff v).mpr ⟨(h.valid_iff v).mpr hv, hn⟩)

end Ledger

namespace Claims
variable {c : Claims} {count : Nat} {seen others held : List ObjectId} {spared : ObjectId → Prop}
  {holder : ObjectId} {isArray recordRoles : Bool} {fieldCount : Nat}

theorem follow_ledger (h : Ledger c.run count seen (c.claimed ++ others) held spared) (hh : holder ≠ 0)
    (target : ObjectId) (index : Nat) :
    Ledger (c.follow holder isArray recordRoles fieldCount target index).run count seen
        ((c.follow holder isArray recordRoles fieldCount target index).claimed ++ others) held spared ∧
      (∀ v, (c.follow holder isArray recordRoles fieldCount target index).run.IsClaimed v ↔
        c.run.IsClaimed v ∨ (v = target ∧ InHeap count v)) ∧
      c.run.SameVisits (c.follow holder isArray recordRoles fieldCount target index).run := by
  unfold follow
  by_cases h0 : target = 0
  · rw [if_pos h0]
    refine ⟨h, fun v => (or_iff_left_of_imp ?_).symm, .refl _⟩
    rintro ⟨rfl, hv⟩
    exact absurd h0 (Nat.pos_iff_ne_zero.mp hv.1)
  rw [if_neg h0]
  by_cases hu : c.run.isUnclaimed target = true
  · rw [if_pos hu]
    cases recordRoles with
    | false => exact ⟨h.claim hu hh, fun v => h.isClaimed_claim_iff hu hh, ⟨_, _, rfl⟩⟩
    | true =>
      have hl := h.claim hu hh
      exact ⟨⟨hl.objectCount, hl.capacity, hl.nodup, hl.claimed, hl.covered⟩,
        fun v => h.isClaimed_claim_iff hu hh, ⟨_, _, rfl⟩⟩
  · rw [if_neg hu]
    exact ⟨h, fun v => h.isClaimed_iff_or hu, .refl _⟩

/-- Following references claims those of their targets that are left. -/
theorem followAll_ledger (targets : List ObjectId) (index : Nat)
    (h : Ledger c.run count seen (c.claimed ++ others) held spared) (hh : holder ≠ 0) :
    Ledger (followAll holder isArray recordRoles fieldCount c targets index).run count seen
        ((followAll holder isArray recordRoles fieldCount c targets index).claimed ++ others) held spared ∧
      (∀ v, (followAll holder isArray recordRoles fieldCount c targets index).run.IsClaimed v ↔
        c.run.IsClaimed v ∨ (v ∈ targets ∧ InHeap count v)) ∧
      c.run.SameVisits (followAll holder isArray recordRoles fieldCount c targets index).run := by
  induction targets generalizing c index with
  | nil =>
    refine ⟨h, fun v => (or_iff_left_of_imp ?_).symm, .refl _⟩
    exact fun hin => absurd hin.1 List.not_mem_nil
  | cons target targets ih =>
    obtain ⟨hl, hiff, hsame⟩ := follow_ledger h hh target index
    obtain ⟨hl', hiff', hsame'⟩ := ih (index + 1) hl
    refine ⟨hl', fun v => ?_, hsame.trans hsame'⟩
    refine (hiff' v).trans ?_
    rw [hiff, List.mem_cons, or_and_right, or_assoc]

end Claims

namespace Walk
variable {t : Terrain} {w : Walk} {count : Nat} {seen next held : List ObjectId} {spared : ObjectId → Prop}

/-- An edge that claims its target for a holder, or for itself. -/
def IsClaim : PendingEdge → Prop
  | .root _ => True
  | .referent _ holder _ => holder ≠ 0
  | .revisit _ => False

theorem release_ledger {e : PendingEdge} (he : IsClaim e) (h : Ledger w.run count seen next held spared) :
    Ledger (w.release t next e).1.run count seen (w.release t next e).2 held spared ∧
      (∀ v, (w.release t next e).1.run.IsClaimed v ↔
        w.run.IsClaimed v ∨ (v = e.target ∧ InHeap count v)) ∧
      ∃ run, w.run.SameVisits run ∧ (w.release t next e).1 = { w with run := run } := by
  cases e with
  | root id =>
    unfold release PendingEdge.target
    by_cases hu : w.run.isUnclaimed id = true
    · have hin := (h.valid_iff id).mp ((w.run.isUnclaimed_iff id).mp hu).1
      have hne : id ≠ 0 := Nat.pos_iff_ne_zero.mp hin.1
      simp only [if_pos hu]
      exact ⟨h.claim hu hne, fun v => h.isClaimed_claim_iff hu hne, _, ⟨_, _, rfl⟩, rfl⟩
    · simp only [if_neg hu]
      exact ⟨h, fun v => h.isClaimed_iff_or hu, w.run, .refl _, rfl⟩
  | referent id holder role =>
    unfold release PendingEdge.target
    by_cases hu : w.run.isUnclaimed id = true
    · simp only [if_pos hu]
      have hl := h.claim hu he
      have hiff := fun v => h.isClaimed_claim_iff (v := v) hu he
      cases t.options.includeFieldInformation with
      | false => exact ⟨hl, hiff, _, ⟨_, _, rfl⟩, rfl⟩
      | true =>
        exact ⟨⟨hl.objectCount, hl.capacity, hl.nodup, hl.claimed, hl.covered⟩, hiff, _, ⟨_, _, rfl⟩, rfl⟩
    · simp only [if_neg hu]
      exact ⟨h, fun v => h.isClaimed_iff_or hu, w.run, .refl _, rfl⟩
  | revisit id => exact he.elim

/-- Releasing claims opens those of their targets that are left. -/
theorem releaseAll_ledger {es : List PendingEdge} (hes : ∀ e ∈ es, IsClaim e)
    (h : Ledger w.run count seen next held spared) :
    Ledger (releaseAll t w next es).1.run count seen (releaseAll t w next es).2 held spared ∧
      (∀ v, (releaseAll t w next es).1.run.IsClaimed v ↔
        w.run.IsClaimed v ∨ ((∃ e ∈ es, e.target = v) ∧ InHeap count v)) ∧
      ∃ run, w.run.SameVisits run ∧ (releaseAll t w next es).1 = { w with run := run } := by
  induction es generalizing w next with
  | nil =>
    refine ⟨h, fun v => (or_iff_left_of_imp ?_).symm, w.run, .refl _, rfl⟩
    rintro ⟨⟨e, he, -⟩, -⟩
    exact absurd he List.not_mem_nil
  | cons e es ih =>
    obtain ⟨hl, hiff, run, hsame, hw⟩ := release_ledger (t := t) (hes e List.mem_cons_self) h
    obtain ⟨hl', hiff', run', hsame', hw'⟩ := ih (fun e' he' => hes e' (List.mem_cons_of_mem e he')) hl
    refine ⟨hl', fun v => ?_, run', ?_, ?_⟩
    · refine (hiff' v).trans ?_
      rw [hiff, or_assoc, List.exists_mem_cons_iff, or_and_right, eq_comm]
    · rw [hw] at hsame'
      exact hsame.trans hsame'
    · refine hw'.trans ?_
      rw [hw]

/-- Claimed objects come back as they are. -/
theorem releaseAll_revisit {ids : List ObjectId} (hids : ∀ id ∈ ids, w.run.IsClaimed id) :
    releaseAll t w next (ids.map .revisit) = (w, ids.reverse ++ next) := by
  induction ids generalizing next with
  | nil => rfl
  | cons id ids ih =>
    have hc := hids id List.mem_cons_self
    have hstep : w.release t next (.revisit id) = (w, id :: next) := by
      unfold release
      have hu : ¬w.run.isUnclaimed id = true := fun h => ((w.run.isUnclaimed_iff id).mp h).2 hc
      simp only [hc.1, Bool.not_true, Bool.false_eq_true, if_false, if_neg hu]
    rw [List.map_cons, releaseAll, hstep]
    dsimp only
    rw [ih fun i hi => hids i (List.mem_cons_of_mem id hi), List.reverse_cons, List.append_assoc]
    rfl

end Walk
end HeapRetention
