import HeapRetention.Proofs.ForestGrowth
import HeapRetention.Proofs.PhaseLayers

/-! How each claim came about. An object is claimed as a root, over an edge of an object that is visited, or as
a referent whose phase has come. Its parent and the code of its role tell which it was, and nothing that
happens later changes them. -/
namespace HeapRetention

/-- The first object of an order that satisfies `D`. -/
def First (order : List ObjectId) (D : ObjectId → Prop) (p : ObjectId) : Prop :=
  ∃ before after, order = before ++ p :: after ∧ D p ∧ ∀ q ∈ before, ¬D q

namespace Terrain

/-- The phase that reaches an object first, in which the object is visited. -/
def MetIn (t : Terrain) (count : Nat) (P : Phase) (id : ObjectId) : Prop :=
  t.Reach count P id ∧ ∀ Q, Q < P → ¬t.Reach count Q id

/-- An edge that was there when `u` was visited. -/
def HadEdge (t : Terrain) (count : Nat) (u v : ObjectId) : Prop :=
  ∃ P, t.MetIn count P u ∧ t.OutEdge P u v

/-- An object whose referent of strength `s` had to wait when the object was visited. -/
def PutOff (t : Terrain) (count : Nat) (s : ReferentStrength) (u v : ObjectId) : Prop :=
  t.options.onlyStrongReferences = false ∧ (∃ P, t.MetIn count P u ∧ P < s.phase) ∧ t.graph.referent s u = v

/-- What a visit in phase `P` follows: the slots of the object and its children in the synthetic tree. -/
def targets (t : Terrain) (isValid : ObjectId → Bool) (P : Phase) (id : ObjectId) : List ObjectId :=
  t.followedSlots isValid P id ++ (t.syntheticChildren? id).getD []

variable {t : Terrain} {count : Nat} {P Q : Phase} {u v id : ObjectId} {s : ReferentStrength}

theorem MetIn.unique (hP : t.MetIn count P id) (hQ : t.MetIn count Q id) : P = Q := by
  rcases Nat.lt_trichotomy P.rank Q.rank with hlt | heq | hlt
  · exact absurd hP.1 (hQ.2 P hlt)
  · exact Phase.eq_of_rank heq
  · exact absurd hQ.1 (hP.2 Q hlt)

/-- What a phase reaches was met by then. -/
theorem Reach.exists_metIn (h : t.Reach count P id) : ∃ Q, Q ≤ P ∧ t.MetIn count Q id := by
  induction hrank : P.rank using Nat.strongRecOn generalizing P with
  | ind rank ih =>
    by_cases hearlier : ∃ Q, Q < P ∧ t.Reach count Q id
    · obtain ⟨Q, hlt, hQ⟩ := hearlier
      have hless : Q.rank < rank := hrank ▸ hlt
      obtain ⟨R, hle, hR⟩ := ih Q.rank hless hQ rfl
      exact ⟨R, Phase.le_trans hle (Phase.le_of_lt hlt), hR⟩
    · exact ⟨P, Phase.le_refl P, h, fun Q hlt hQ => hearlier ⟨Q, hlt, hQ⟩⟩

theorem referent_eq_iff (hv : v ≠ 0) : t.graph.referent s u = v ↔
    ∃ r, t.graph.referentSlot? u = some r ∧ r.strength = s ∧ (t.graph.references u)[r.slot]? = some v := by
  unfold HeapGraph.referent
  constructor
  · intro h
    split at h
    · next r hr =>
      split at h
      · next hs =>
        refine ⟨r, hr, hs, ?_⟩
        cases hget : (t.graph.references u)[r.slot]? with
        | none =>
          rw [hget] at h
          exact absurd h.symm hv
        | some v' =>
          rw [hget] at h
          exact congrArg some h
      · exact absurd h.symm hv
    · exact absurd h.symm hv
  · rintro ⟨r, hr, rfl, hget⟩
    rw [hr]
    dsimp only
    rw [if_pos rfl, hget]
    rfl

end Terrain

/-- How an object `x` with parent `p` was claimed, as the code of its role tells. -/
inductive Told (t : Terrain) (fresh : Run) (order : List ObjectId) (x p code : Nat) : Prop
  | root (hp : p = x) (hcode : code = 0)
  | edge {P : Phase} {i : Nat} (hne : p ≠ x) (hfirst : First order (t.HadEdge fresh.objectCount · x) p)
      (hmet : t.MetIn fresh.objectCount P p) (hget : (t.targets fresh.isValid P p)[i]? = some x)
      (hleast : ∀ j, j < i → (t.targets fresh.isValid P p)[j]? ≠ some x)
      (hcode : code = (Role.forSlot (t.graph.classes.isArray (t.graph.classOf p)) i
        (t.followedSlots fresh.isValid P p).length).encode)
  | referent {s : ReferentStrength} (hne : p ≠ x)
      (hfirst : First order (t.PutOff fresh.objectCount s · x) p) (hcode : code = s.role.encode)

/-- A run whose parents and roles tell how each claim came about. -/
structure Tells (t : Terrain) (fresh : Run) (order : List ObjectId) (run : Run) : Prop where
  objectCount : run.objectCount = fresh.objectCount
  parents : run.parents.capacity = fresh.objectCount + 2
  roles : run.roles.capacity = fresh.objectCount + 2
  blank : ∀ x, run.isUnclaimed x = true → run.roles.get x = 0
  told : ∀ x, run.IsClaimed x → Told t fresh order x (run.parents.get x) (run.roles.get x)

variable {t : Terrain} {fresh run run' : Run} {order order' : List ObjectId} {x p code : Nat}

theorem First.append {D : ObjectId → Prop} (h : First order D p) (more : List ObjectId) :
    First (order ++ more) D p := by
  obtain ⟨before, after, rfl, hp, hbefore⟩ := h
  exact ⟨before, after ++ more, by rw [List.append_assoc, List.cons_append], hp, hbefore⟩

/-- An object that nothing in the order is like is the first one of its kind when it comes. -/
theorem First.last {D : ObjectId → Prop} (hp : D p) (h : ∀ q ∈ order, ¬D q) : First (order ++ [p]) D p :=
  ⟨order, [], rfl, hp, h⟩

theorem Told.append (h : Told t fresh order x p code) (more : List ObjectId) :
    Told t fresh (order ++ more) x p code := by
  cases h with
  | root hp hcode => exact .root hp hcode
  | edge hne hfirst hmet hget hleast hcode => exact .edge hne (hfirst.append more) hmet hget hleast hcode
  | referent hne hfirst hcode => exact .referent hne (hfirst.append more) hcode

namespace Tells

theorem append (h : Tells t fresh order run) (more : List ObjectId) : Tells t fresh (order ++ more) run :=
  { h with told := fun x hx => (h.told x hx).append more }

/-- A claim tells its own story and leaves the others as they are. -/
theorem claimed (h : Tells t fresh order run) (hu : run.isUnclaimed x = true) (hp : p ≠ 0)
    (hcount : run'.objectCount = run.objectCount) (hparents : run'.parents = run.parents.put x p)
    (hcapacity : run'.roles.capacity = run.roles.capacity)
    (hroles : ∀ v, x ≠ v → run'.roles.get v = run.roles.get v)
    (htold : Told t fresh order x p (run'.roles.get x)) :
    Tells t fresh order run' ∧ ∀ v, run'.isUnclaimed v = true → run.isUnclaimed v = true ∧ v ≠ x := by
  obtain ⟨hvalid, hn⟩ := (run.isUnclaimed_iff x).mp hu
  have hroom : x < run.parents.capacity := by
    have hle := ((run.isValid_iff x).mp hvalid).2
    rw [h.objectCount] at hle
    rw [h.parents]
    omega
  have hget : ∀ v, run'.parents.get v = if x = v then p else run.parents.get v := by
    intro v
    rw [hparents, Slots.get_put]
    simp only [hroom, and_true]
  have hsame : ∀ v, run'.isValid v = run.isValid v := by
    intro v
    unfold Run.isValid
    rw [hcount]
  have hback : ∀ v, run'.isUnclaimed v = true → run.isUnclaimed v = true ∧ v ≠ x := by
    intro v hv
    unfold Run.isUnclaimed at hv ⊢
    rw [hsame, hget] at hv
    by_cases he : x = v
    · rw [if_pos he, Bool.and_eq_true, beq_iff_eq] at hv
      exact absurd hv.2 hp
    · rw [if_neg he] at hv
      exact ⟨hv, fun h => he h.symm⟩
  refine ⟨?_, hback⟩
  exact {
    objectCount := hcount.trans h.objectCount
    parents := by
      rw [hparents, Slots.capacity_put]
      exact h.parents
    roles := hcapacity.trans h.roles
    blank := fun v hv => by
      obtain ⟨hold, hne⟩ := hback v hv
      rw [hroles v fun he => hne he.symm]
      exact h.blank v hold
    told := fun v hv => by
      by_cases he : x = v
      · subst he
        rw [hget, if_pos rfl]
        exact htold
      · have hclaimed : run.IsClaimed v := by
          have hne := hv.2
          rw [hget, if_neg he] at hne
          exact ⟨(hsame v).symm.trans hv.1, hne⟩
        rw [hget, if_neg he, hroles v he]
        exact h.told v hclaimed }

theorem claimRoot (h : Tells t fresh order run) (hu : run.isUnclaimed x = true) :
    Tells t fresh order (run.claim x x) ∧
      ∀ v, (run.claim x x).isUnclaimed v = true → run.isUnclaimed v = true ∧ v ≠ x := by
  have hx := ((run.isValid_iff x).mp ((run.isUnclaimed_iff x).mp hu).1).1
  have htold : Told t fresh order x x ((run.claim x x).roles.get x) := .root rfl (h.blank x hu)
  exact h.claimed hu (Nat.pos_iff_ne_zero.mp hx) rfl rfl rfl (fun _ _ => rfl) htold

theorem claimAs (h : Tells t fresh order run) (hu : run.isUnclaimed x = true) (hp : p ≠ 0) {role : Role}
    (htold : Told t fresh order x p role.encode) :
    Tells t fresh order ((run.claim x p).recordRole x role) ∧
      ∀ v, ((run.claim x p).recordRole x role).isUnclaimed v = true → run.isUnclaimed v = true ∧ v ≠ x := by
  have hroom : x < run.roles.capacity := by
    have hle := ((run.isValid_iff x).mp ((run.isUnclaimed_iff x).mp hu).1).2
    rw [h.objectCount] at hle
    rw [h.roles]
    omega
  have hget : ∀ v, ((run.claim x p).recordRole x role).roles.get v =
      if x = v ∧ x < run.roles.capacity then role.encode else run.roles.get v :=
    fun v => Slots.get_put _ _ _ _
  refine h.claimed hu hp ?_ ?_ ?_ ?_ ?_
  · rfl
  · rfl
  · exact Slots.capacity_put _ _ _
  · intro v hne
    rw [hget, if_neg fun hand => hne hand.1]
  · rw [hget, if_pos ⟨rfl, hroom⟩]
    exact htold

end Tells

namespace Claims
variable {holder fieldCount : Nat} {isArray : Bool}

/-- Whatever a reference does, its target is not to be claimed any more. -/
theorem tells_follow {c : Claims} {target index : Nat} (hh : holder ≠ 0) (h : Tells t fresh order c.run)
    (htold : c.run.isUnclaimed target = true →
      Told t fresh order target holder (Role.forSlot isArray index fieldCount).encode) :
    Tells t fresh order (c.follow holder isArray true fieldCount target index).run ∧
      ∀ v, (c.follow holder isArray true fieldCount target index).run.isUnclaimed v = true →
        c.run.isUnclaimed v = true ∧ v ≠ target := by
  unfold follow
  split
  · next h0 =>
    refine ⟨h, fun v hv => ⟨hv, ?_⟩⟩
    rintro rfl
    exact absurd h0 (Nat.pos_iff_ne_zero.mp ((c.run.isValid_iff v).mp ((c.run.isUnclaimed_iff v).mp hv).1).1)
  · split
    · next hu => exact h.claimAs hu hh (htold hu)
    · next hu =>
      refine ⟨h, fun v hv => ⟨hv, ?_⟩⟩
      rintro rfl
      exact hu hv

/-- Following references tells of each claim which reference was the first to make it. -/
theorem tells_followAll (all : List ObjectId) (hh : holder ≠ 0)
    (hedge : ∀ i v, all[i]? = some v → (∀ j, j < i → all[j]? ≠ some v) → run.isUnclaimed v = true →
      Told t fresh order v holder (Role.forSlot isArray i fieldCount).encode)
    (rest passed : List ObjectId) (c : Claims) (hall : all = passed ++ rest) (h : Tells t fresh order c.run)
    (hback : ∀ v, c.run.isUnclaimed v = true → run.isUnclaimed v = true ∧ v ∉ passed) :
    Tells t fresh order (followAll holder isArray true fieldCount c rest passed.length).run := by
  -- along the references: those that were passed are claimed, so none of them is told again
  induction rest generalizing passed c with
  | nil => exact h
  | cons target rest ih =>
    have hnext : (passed ++ [target]).length = passed.length + 1 := List.length_append
    have htold : c.run.isUnclaimed target = true →
        Told t fresh order target holder (Role.forSlot isArray passed.length fieldCount).encode := by
      intro hu
      obtain ⟨hfirst, hnew⟩ := hback target hu
      apply hedge _ _ ?_ ?_ hfirst
      · rw [hall, List.getElem?_append_right (Nat.le_refl _), Nat.sub_self]
        rfl
      · intro j hj hget
        rw [hall, List.getElem?_append_left hj] at hget
        exact hnew (List.mem_of_getElem? hget)
    have hstep := tells_follow hh h htold
    rw [followAll, ← hnext]
    apply ih (passed ++ [target]) _ ?_ hstep.1
    · intro v hv
      obtain ⟨hold, hne⟩ := hstep.2 v hv
      obtain ⟨hunclaimed, hpassed⟩ := hback v hold
      refine ⟨hunclaimed, fun hin => ?_⟩
      rcases List.mem_append.mp hin with hin | hin
      · exact hpassed hin
      · exact hne (List.mem_singleton.mp hin)
    · rw [hall, List.append_assoc]
      rfl

end Claims

namespace Walk
variable {w : Walk} {next : List ObjectId}

/-- Edges that tell true stories once they are released in order. -/
def Ready (t : Terrain) (fresh : Run) (order : List ObjectId) (run : Run) (es : List PendingEdge) : Prop :=
  ∀ before v holder role after, es = before ++ .referent v holder role :: after →
    (∀ e ∈ before, e.target ≠ v) → run.isUnclaimed v = true →
    holder ≠ 0 ∧ Told t fresh order v holder role.encode

theorem tells_release (hinfo : t.options.includeFieldInformation = true) {e : PendingEdge}
    (h : Tells t fresh order w.run)
    (he : ∀ v holder role, e = .referent v holder role → w.run.isUnclaimed v = true →
      holder ≠ 0 ∧ Told t fresh order v holder role.encode) :
    Tells t fresh order (w.release t next e).1.run ∧
      ∀ v, (w.release t next e).1.run.isUnclaimed v = true → w.run.isUnclaimed v = true ∧ v ≠ e.target := by
  have hkeep : ∀ id, ¬w.run.isUnclaimed id = true →
      ∀ v, w.run.isUnclaimed v = true → w.run.isUnclaimed v = true ∧ v ≠ id := by
    intro id hu v hv
    refine ⟨hv, ?_⟩
    rintro rfl
    exact hu hv
  cases e with
  | root id =>
    simp only [release, PendingEdge.target]
    split
    · next hu => exact h.claimRoot hu
    · next hu => exact ⟨h, hkeep id hu⟩
  | referent id holder role =>
    simp only [release, PendingEdge.target, hinfo, if_true]
    split
    · next hu =>
      obtain ⟨hh, htold⟩ := he id holder role rfl hu
      exact h.claimAs hu hh htold
    · next hu => exact ⟨h, hkeep id hu⟩
  | revisit id =>
    simp only [release, PendingEdge.target]
    split
    · next hinvalid =>
      refine ⟨h, hkeep id fun hu => ?_⟩
      rw [((w.run.isUnclaimed_iff id).mp hu).1] at hinvalid
      cases hinvalid
    · split
      · next hu => exact h.claimRoot hu
      · next hu => exact ⟨h, hkeep id hu⟩

theorem tells_releaseAll (hinfo : t.options.includeFieldInformation = true) {es : List PendingEdge}
    (h : Tells t fresh order w.run) (hes : Ready t fresh order w.run es) :
    Tells t fresh order (releaseAll t w next es).1.run := by
  induction es generalizing w next with
  | nil => exact h
  | cons e es ih =>
    have hhead : ∀ v holder role, e = .referent v holder role → w.run.isUnclaimed v = true →
        holder ≠ 0 ∧ Told t fresh order v holder role.encode := by
      rintro v holder role rfl hv
      exact hes [] v holder role es rfl (fun e he => absurd he List.not_mem_nil) hv
    obtain ⟨htells, hback⟩ := @tells_release _ _ _ _ next hinfo e h hhead
    apply ih htells
    intro before v holder role after heq hbefore hv
    obtain ⟨hold, hne⟩ := hback v hv
    apply hes (e :: before) v holder role after
    · rw [heq]
      rfl
    · intro e' he'
      rcases List.mem_cons.mp he' with rfl | he'
      · exact fun heq => hne heq.symm
      · exact hbefore e' he'
    · exact hold

end Walk
end HeapRetention
