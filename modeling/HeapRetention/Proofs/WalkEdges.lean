import HeapRetention.Proofs.PhaseReach

/-! Which edges a visit follows and which it puts off. The slot of a referent is read as null as long as the
phase of its strength lies ahead; a visit then follows exactly the edges of its phase, and what it puts off
are the edges that later phases add. -/
namespace HeapRetention

/-- The role of a referent of a strength. -/
def ReferentStrength.role : ReferentStrength → Role
  | .soft => .softReference
  | .weak => .weakReference

/-- The object that an edge is about. -/
def PendingEdge.target : PendingEdge → ObjectId
  | .root id => id
  | .referent id _ _ => id
  | .revisit id => id

theorem getElem?_set_zero_iff {slots : List ObjectId} {k i : Nat} {v : ObjectId} (hv : v ≠ 0) :
    (slots.set k 0)[i]? = some v ↔ slots[i]? = some v ∧ k ≠ i := by
  rw [List.getElem?_set]
  by_cases hi : k = i
  · rw [if_pos hi]
    refine iff_of_false ?_ fun h => h.2 hi
    split
    · exact fun h => hv (Option.some.inj h).symm
    · exact fun h => by cases h
  · rw [if_neg hi, and_iff_left hi]

namespace Terrain
variable {t : Terrain} {P Q : Phase} {id v : ObjectId} {role : Role} {isValid : ObjectId → Bool}

theorem postponedReferent?_of_none (h : t.graph.referentSlot? id = none) :
    t.postponedReferent? P id = none := by
  have hzero : ∀ s, t.graph.referent s id = 0 := by
    intro s
    unfold HeapGraph.referent
    rw [h]
  unfold postponedReferent?
  rw [hzero, hzero]
  rfl

/-- A referent waits as long as the phase of its strength lies ahead. -/
theorem postponedReferent?_of_some {r : ReferentSlot} (h : t.graph.referentSlot? id = some r) :
    t.postponedReferent? P id =
      if (t.graph.references id)[r.slot]?.getD 0 ≠ 0 ∧ P < r.strength.phase then
        some (r.strength.phase, (t.graph.references id)[r.slot]?.getD 0, r.strength.role)
      else none := by
  obtain ⟨strength, slot⟩ := r
  have hown : t.graph.referent strength id = (t.graph.references id)[slot]?.getD 0 := by
    unfold HeapGraph.referent
    rw [h]
    exact if_pos rfl
  have hother : ∀ s, strength ≠ s → t.graph.referent s id = 0 := by
    intro s hs
    unfold HeapGraph.referent
    rw [h]
    exact if_neg hs
  unfold postponedReferent?
  cases strength with
  | soft =>
    rw [hown, hother .weak (by decide)]
    rfl
  | weak =>
    rw [hown, hother .soft (by decide)]
    rfl

theorem postponedReferent?_eq_some_iff :
    t.postponedReferent? P id = some (Q, v, role) ↔
      ∃ r, t.graph.referentSlot? id = some r ∧ v ≠ 0 ∧ (t.graph.references id)[r.slot]? = some v ∧
        P < Q ∧ r.strength.phase = Q ∧ r.strength.role = role := by
  cases hr : t.graph.referentSlot? id with
  | none =>
    rw [postponedReferent?_of_none hr]
    exact iff_of_false (fun h => by cases h) fun ⟨_, h, _⟩ => by cases h
  | some r =>
    rw [postponedReferent?_of_some hr]
    constructor
    · intro h
      split at h
      · next hand =>
        cases h
        refine ⟨r, rfl, hand.1, ?_, hand.2, rfl, rfl⟩
        cases hv : (t.graph.references id)[r.slot]? with
        | none =>
          rw [hv] at hand
          exact absurd rfl hand.1
        | some v => rfl
      · cases h
    · rintro ⟨r', h, hne, hv, hlt, rfl, rfl⟩
      cases h
      rw [hv]
      exact if_pos ⟨hne, hlt⟩

/-- Reading invalid slots as null takes nothing else away. -/
theorem getElem?_validSlots_iff {slots : List ObjectId} {i : Nat} (hv : v ≠ 0) :
    (slots.map fun target => if isValid target then target else 0)[i]? = some v ↔
      isValid v = true ∧ slots[i]? = some v := by
  rw [List.getElem?_map]
  cases slots[i]? with
  | none => exact iff_of_false (fun h => by cases h) fun h => by cases h.2
  | some u =>
    rw [Option.map_some, Option.some_inj, Option.some_inj]
    split
    · next hu =>
      constructor
      · rintro rfl
        exact ⟨hu, rfl⟩
      · exact fun h => h.2
    · next hu =>
      refine iff_of_false (fun h => hv h.symm) ?_
      rintro ⟨hval, rfl⟩
      exact hu hval

/-- A visit in phase `P` follows a slot unless it is that of a referent whose phase lies ahead. -/
def Follows (t : Terrain) (P : Phase) (id : ObjectId) (i : Nat) (v : ObjectId) : Prop :=
  (t.graph.references id)[i]? = some v ∧
    ∀ r, t.graph.referentSlot? id = some r → r.slot = i → r.strength.phase ≤ P

theorem getElem?_followedSlots_iff {i : Nat} (hv : v ≠ 0) :
    (t.followedSlots isValid P id)[i]? = some v ↔ isValid v = true ∧ t.Follows P id i v := by
  unfold followedSlots Follows
  cases hr : t.graph.referentSlot? id with
  | none =>
    rw [postponedReferent?_of_none hr]
    simp only [getElem?_validSlots_iff hv, reduceCtorEq, false_imp_iff, implies_true, and_true]
  | some r =>
    rw [postponedReferent?_of_some hr]
    split
    -- the referent waits for a later phase, and its slot reads as null
    · next p r' hp hr' =>
      cases hr'
      split at hp
      · next hand =>
        simp only [getElem?_set_zero_iff hv, getElem?_validSlots_iff hv, and_assoc, and_congr_right_iff,
          Option.some.injEq, forall_eq']
        intro _ _
        constructor
        · exact fun hne he => absurd he hne
        · exact fun hle he => Phase.not_le.mpr hand.2 (hle he)
      · cases hp
    -- it does not: either its phase has come or it is null
    · next hnone =>
      simp only [getElem?_validSlots_iff hv, and_congr_right_iff, Option.some.injEq, forall_eq']
      intro _
      symm
      apply and_iff_left_of_imp
      rintro hi rfl
      rcases Nat.lt_or_ge P.rank r.strength.phase.rank with hlt | hge
      · refine absurd rfl (hnone _ r (if_pos ⟨?_, hlt⟩))
        rw [hi]
        exact hv
      · exact hge

theorem mem_followedSlots_iff (hv : v ≠ 0) :
    v ∈ t.followedSlots isValid P id ↔ isValid v = true ∧ ∃ i : Nat,
      (t.graph.references id)[i]? = some v ∧
        ∀ r, t.graph.referentSlot? id = some r → r.slot = i → r.strength.phase ≤ P := by
  rw [List.mem_iff_getElem?]
  simp only [getElem?_followedSlots_iff hv, exists_and_left, Follows]

/-- A visit follows the edges of its phase. -/
theorem mem_followed_iff (hv : isValid v = true) (hv0 : v ≠ 0)
    (honly : t.options.onlyStrongReferences = true → P ≤ .syntheticTree) :
    v ∈ t.followedSlots isValid P id ++ (t.syntheticChildren? id).getD [] ↔ t.OutEdge P id v := by
  rw [List.mem_append, mem_followedSlots_iff hv0, and_iff_right hv]
  constructor
  · rintro (⟨i, hi, hall⟩ | hc)
    · by_cases hslot : ∃ r, t.graph.referentSlot? id = some r ∧ r.slot = i
      · obtain ⟨r, hr, rfl⟩ := hslot
        refine .referent hr hi (hall r hr rfl) ?_
        -- with only strong references no referent has its phase yet
        rw [← Bool.not_eq_true]
        intro hyes
        have hle := Phase.le_trans (hall r hr rfl) (honly hyes)
        cases hs : r.strength <;> rw [hs] at hle <;> exact absurd hle (by decide)
      · exact .slot hi fun r hr he => hslot ⟨r, hr, he⟩
    · exact .child hc
  · intro h
    cases h with
    | slot hi hne => exact Or.inl ⟨_, hi, fun r hr he => absurd he (hne r hr)⟩
    | child hc => exact Or.inr hc
    | referent hr hi hP _ =>
      refine Or.inl ⟨_, hi, fun r' hr' _ => ?_⟩
      rw [hr] at hr'
      cases hr'
      exact hP

/-- The edges that wait for phase `Q` once `id` is visited in phase `P`. -/
def deferred (t : Terrain) (isValid : ObjectId → Bool) (P : Phase) (id : ObjectId) (Q : Phase) :
    List PendingEdge :=
  match t.postponedReferent? P id with
  | some (phase, referent, role) =>
    if Q = phase ∧ t.options.onlyStrongReferences = false ∧ isValid referent then
      [.referent referent id role]
    else []
  | none => []

theorem mem_deferred_iff {e : PendingEdge} :
    e ∈ t.deferred isValid P id Q ↔ ∃ r v, t.graph.referentSlot? id = some r ∧ v ≠ 0 ∧
      (t.graph.references id)[r.slot]? = some v ∧ P < Q ∧ r.strength.phase = Q ∧
      t.options.onlyStrongReferences = false ∧ isValid v = true ∧ e = .referent v id r.strength.role := by
  unfold deferred
  constructor
  · intro h
    split at h
    · next phase v role hp =>
      obtain ⟨r, hr, hne, hv, hlt, hphase, rfl⟩ := postponedReferent?_eq_some_iff.mp hp
      split at h
      · next hand =>
        obtain ⟨rfl, honly, hval⟩ := hand
        exact ⟨r, v, hr, hne, hv, hlt, hphase, honly, hval, List.mem_singleton.mp h⟩
      · exact absurd h List.not_mem_nil
    · exact absurd h List.not_mem_nil
  · rintro ⟨r, v, hr, hne, hv, hlt, hphase, honly, hval, rfl⟩
    rw [postponedReferent?_eq_some_iff.mpr ⟨r, hr, hne, hv, hlt, hphase, rfl⟩]
    dsimp only
    rw [if_pos ⟨rfl, honly, hval⟩]
    exact List.mem_singleton_self _

/-- What a later phase adds to the edges of an object is put off until then. -/
theorem OutEdge.now_or_deferred (h : t.OutEdge Q id v) (P : Phase) (hv : isValid v = true) (hv0 : v ≠ 0) :
    t.OutEdge P id v ∨ ∃ R, P < R ∧ R ≤ Q ∧ ∃ e ∈ t.deferred isValid P id R, e.target = v := by
  cases h with
  | slot hi hne => exact Or.inl (.slot hi hne)
  | child hc => exact Or.inl (.child hc)
  | @referent r _ hr hi hP honly =>
    rcases Nat.lt_or_ge P.rank r.strength.phase.rank with hlt | hge
    · refine Or.inr ⟨r.strength.phase, hlt, hP, .referent v id r.strength.role, ?_, rfl⟩
      exact mem_deferred_iff.mpr ⟨r, v, hr, hv0, hi, hlt, rfl, honly, hv, rfl⟩
    · exact Or.inl (.referent hr hi hge honly)

end Terrain
end HeapRetention
