import HeapRetention.Proofs.WalkRun
import Mathlib.Data.List.TakeDrop

/-! How the forest of parents grows. A claim makes a seed its own parent, or makes an object the child of one
that is visited, now or at an earlier time if the edge had to wait; no claim changes a parent that is there.
Since an object is claimed before it is visited, its parent comes first in the order of visits. -/
namespace HeapRetention

/-- The parents of the claimed objects, with the objects visited so far in their order. -/
structure Forest (top : ObjectId → Prop) (r : Run) (order : List ObjectId) : Prop where
  claimed : ∀ id ∈ order, r.IsClaimed id
  top : ∀ id, r.IsClaimed id → r.parents.get id = id → top id
  parent : ∀ id, r.IsClaimed id → r.parents.get id = id ∨ r.parents.get id ∈ order
  earlier : ∀ (i : Nat) (id : ObjectId), order[i]? = some id →
    r.parents.get id = id ∨ r.parents.get id ∈ order.take i

/-- An edge that may be released into a forest. -/
def PendingEdge.Anchored (top : ObjectId → Prop) (r : Run) (order : List ObjectId) : PendingEdge → Prop
  | .root id => top id
  | .referent _ holder _ => holder ∈ order
  | .revisit id => top id ∨ r.IsClaimed id

section
variable {top : ObjectId → Prop} {r r' : Run} {order order' : List ObjectId} {id v parent holder : ObjectId}

theorem Run.IsClaimed.ne (h : r.IsClaimed v) (hu : r.isUnclaimed id = true) : id ≠ v := by
  rintro rfl
  exact ((r.isUnclaimed_iff id).mp hu).2 h

theorem Run.parents_claim_of_ne (hne : id ≠ v) : (r.claim id parent).parents.get v = r.parents.get v :=
  (Slots.get_put _ _ _ _).trans (if_neg fun h => hne h.1)

theorem Run.IsClaimed.claim (h : r.IsClaimed v) (hu : r.isUnclaimed id = true) :
    (r.claim id parent).IsClaimed v := by
  refine ⟨h.1, ?_⟩
  rw [Run.parents_claim_of_ne (h.ne hu)]
  exact h.2

/-- The parent of an object whose claim went through. -/
theorem Run.parents_claim_self (hu : r.isUnclaimed id = true) (h : (r.claim id parent).IsClaimed id) :
    (r.claim id parent).parents.get id = parent := by
  have hget : (r.claim id parent).parents.get id =
      if id = id ∧ id < r.parents.capacity then parent else r.parents.get id := Slots.get_put _ _ _ _
  by_cases hroom : id < r.parents.capacity
  · rw [hget, if_pos ⟨rfl, hroom⟩]
  · have hold := h.2
    rw [hget, if_neg fun hand => hroom hand.2] at hold
    exact absurd ⟨h.1, hold⟩ ((r.isUnclaimed_iff id).mp hu).2

theorem PendingEdge.Anchored.mono {e : PendingEdge} (h : e.Anchored top r order)
    (hclaimed : ∀ v, r.IsClaimed v → r'.IsClaimed v) (horder : order ⊆ order') :
    e.Anchored top r' order' := by
  cases e with
  | root id => exact h
  | referent id holder role => exact horder h
  | revisit id => exact h.imp_right (hclaimed id)

namespace Forest

theorem of_parents (h : Forest top r order) (hp : r'.parents = r.parents)
    (hc : r'.objectCount = r.objectCount) : Forest top r' order := by
  have hiff : ∀ id, r'.IsClaimed id ↔ r.IsClaimed id := by
    intro id
    unfold Run.IsClaimed Run.isValid
    rw [hp, hc]
  refine ⟨fun id hid => (hiff id).mpr (h.claimed id hid), fun id hid => ?_, fun id hid => ?_,
    fun i id hi => ?_⟩ <;> rw [hp]
  · exact h.top id ((hiff id).mp hid)
  · exact h.parent id ((hiff id).mp hid)
  · exact h.earlier i id hi

theorem claim (h : Forest top r order) (hu : r.isUnclaimed id = true)
    (hp : (parent = id ∧ top id) ∨ parent ∈ order) : Forest top (r.claim id parent) order := by
  have hkeep : ∀ v ∈ order, (r.claim id parent).parents.get v = r.parents.get v :=
    fun v hv => Run.parents_claim_of_ne ((h.claimed v hv).ne hu)
  have hold : ∀ v, id ≠ v → (r.claim id parent).IsClaimed v → r.IsClaimed v := by
    intro v hne hv
    refine ⟨hv.1, ?_⟩
    rw [← Run.parents_claim_of_ne hne]
    exact hv.2
  exact {
    claimed := fun v hv => (h.claimed v hv).claim hu
    top := fun v hv hself => by
      by_cases he : id = v
      · subst he
        rw [Run.parents_claim_self hu hv] at hself
        -- a visited object is claimed, so it is not the one that is claimed now
        exact (hp.resolve_right fun hin => (h.claimed parent hin).ne hu hself.symm).2
      · rw [Run.parents_claim_of_ne he] at hself
        exact h.top v (hold v he hv) hself
    parent := fun v hv => by
      by_cases he : id = v
      · subst he
        rw [Run.parents_claim_self hu hv]
        exact hp.imp_left And.left
      · rw [Run.parents_claim_of_ne he]
        exact h.parent v (hold v he hv)
    earlier := fun i v hi => by
      rw [hkeep v (List.mem_of_getElem? hi)]
      exact h.earlier i v hi }

/-- A claimed object joins the visited ones. -/
theorem visit (h : Forest top r order) (hc : r.IsClaimed id) : Forest top r (order ++ [id]) where
  claimed v hv := by
    rcases List.mem_append.mp hv with hv | hv
    · exact h.claimed v hv
    · exact List.mem_singleton.mp hv ▸ hc
  top := h.top
  parent := fun v hv => (h.parent v hv).imp_right (List.mem_append_left _)
  earlier i v hi := by
    by_cases hlt : i < order.length
    · rw [List.getElem?_append_left hlt] at hi
      rw [List.take_append_of_le_length (Nat.le_of_lt hlt)]
      exact h.earlier i v hi
    -- the new one comes last, and its parent is itself or was visited
    · have hin := (List.getElem?_eq_some_iff.mp hi).1
      rw [List.length_append, List.length_singleton] at hin
      have hlast : i = order.length := by omega
      subst hlast
      rw [List.getElem?_concat_length] at hi
      obtain rfl := Option.some.inj hi
      rw [List.take_left]
      exact h.parent id hc

end Forest

theorem Claims.forest_followAll {c : Claims} {isArray recordRoles : Bool} {fieldCount : Nat}
    (targets : List ObjectId) (index : Nat) (h : Forest top c.run order) (hh : holder ∈ order) :
    Forest top (Claims.followAll holder isArray recordRoles fieldCount c targets index).run order := by
  induction targets generalizing c index with
  | nil => exact h
  | cons target targets ih =>
    refine ih (index + 1) ?_
    unfold Claims.follow
    split
    · exact h
    · split
      · next hu =>
        have hclaim := h.claim hu (Or.inr hh)
        cases recordRoles with
        | false => exact hclaim
        | true => exact hclaim.of_parents rfl rfl
      · exact h

end

namespace Walk
variable {top : ObjectId → Prop} {t : Terrain} {fresh : Run} {w : Walk} {next order : List ObjectId}

theorem release_claimed {v : ObjectId} (h : w.run.IsClaimed v) (e : PendingEdge) :
    (w.release t next e).1.run.IsClaimed v := by
  cases e with
  | root id =>
    simp only [release]
    split
    · next hu => exact h.claim hu
    · exact h
  | referent id holder role =>
    simp only [release]
    split
    · next hu =>
      have hclaim := @Run.IsClaimed.claim w.run id v holder h hu
      cases t.options.includeFieldInformation <;> exact hclaim
    · exact h
  | revisit id =>
    simp only [release]
    split
    · exact h
    · split
      · next hu => exact h.claim hu
      · exact h

theorem releaseAll_claimed {v : ObjectId} (es : List PendingEdge) (h : w.run.IsClaimed v) :
    (releaseAll t w next es).1.run.IsClaimed v := by
  induction es generalizing w next with
  | nil => exact h
  | cons e es ih => exact ih (release_claimed h e)

theorem forest_release {e : PendingEdge} (h : Forest top w.run order) (he : e.Anchored top w.run order) :
    Forest top (w.release t next e).1.run order := by
  cases e with
  | root id =>
    simp only [release]
    split
    · next hu => exact h.claim hu (Or.inl ⟨rfl, he⟩)
    · exact h
  | referent id holder role =>
    simp only [release]
    split
    · next hu =>
      have hclaim := h.claim hu (Or.inr he)
      cases t.options.includeFieldInformation with
      | false => exact hclaim
      | true => exact hclaim.of_parents rfl rfl
    · exact h
  | revisit id =>
    simp only [release]
    split
    · exact h
    · split
      · next hu =>
        have hseed := he.resolve_right ((w.run.isUnclaimed_iff id).mp hu).2
        exact h.claim hu (Or.inl ⟨rfl, hseed⟩)
      · exact h

theorem forest_releaseAll {es : List PendingEdge} (h : Forest top w.run order)
    (hes : ∀ e ∈ es, e.Anchored top w.run order) :
    Forest top (releaseAll t w next es).1.run order := by
  induction es generalizing w next with
  | nil => exact h
  | cons e es ih =>
    apply ih (forest_release h (hes e List.mem_cons_self))
    intro e' he'
    exact (hes e' (List.mem_cons_of_mem e he')).mono (fun v hv => release_claimed hv e) fun _ hv => hv

theorem release_eq (t : Terrain) (w : Walk) (next : List ObjectId) (e : PendingEdge) :
    ∃ run roots, w.run.SameVisits run ∧ (w.release t next e).1 = { w with run := run, roots := roots } := by
  cases e with
  | root id =>
    simp only [release]
    split
    · exact ⟨_, _, ⟨_, _, rfl⟩, rfl⟩
    · exact ⟨_, _, .refl _, rfl⟩
  | referent id holder role =>
    simp only [release]
    split
    · cases t.options.includeFieldInformation <;> exact ⟨_, _, ⟨_, _, rfl⟩, rfl⟩
    · exact ⟨_, _, .refl _, rfl⟩
  | revisit id =>
    simp only [release]
    split
    · exact ⟨_, _, .refl _, rfl⟩
    · split
      · exact ⟨_, _, ⟨_, _, rfl⟩, rfl⟩
      · exact ⟨_, _, .refl _, rfl⟩

/-- Releases change nothing but claims and roots. -/
theorem releaseAll_eq (t : Terrain) (w : Walk) (next : List ObjectId) (es : List PendingEdge) :
    ∃ run roots, w.run.SameVisits run ∧
      (releaseAll t w next es).1 = { w with run := run, roots := roots } := by
  induction es generalizing w next with
  | nil => exact ⟨w.run, w.roots, .refl _, rfl⟩
  | cons e es ih =>
    obtain ⟨run, roots, hsame, heq⟩ := release_eq t w next e
    obtain ⟨run', roots', hsame', heq'⟩ := ih (w.release t next e).1 (w.release t next e).2
    rw [heq] at hsame'
    refine ⟨run', roots', hsame.trans hsame', heq'.trans ?_⟩
    rw [heq]

/-- What the visits so far decide is kept by all steps if visits keep it: the other steps leave the visits
alone. -/
theorem Kept.of_visits {fresh : Run} {P : Walk → Prop}
    (hsame : ∀ (w : Walk) parents roles phase frontier queues roots, P w →
      P { w with run := { w.run with parents, roles }, phase, frontier, queues, roots })
    (hvisit : ∀ {w segment next id rest held}, Inv t fresh w segment (next ++ id :: rest) held → P w →
      P (w.visit t next id).1) : Kept t fresh P where
  frontier w h ids := hsame w w.run.parents w.run.roles w.phase ids w.queues w.roots h
  visit hw _ h := hvisit hw h
  passOver {w _ _ id _ _} _ _ h := by
    have hdefer : ∀ queues, P { w with queues := queues } :=
      fun queues => hsame w w.run.parents w.run.roles w.phase w.frontier queues w.roots h
    unfold Walk.passOver
    split
    · exact h
    · split
      · exact h
      · exact hdefer _
  advance {w _ _} _ _ h := by
    obtain ⟨run, roots, ⟨parents, roles, rfl⟩, heq⟩ :=
      releaseAll_eq t w.entering [] (w.queues.pending w.phase.next)
    rw [advance_eq, heq]
    exact hsame w parents roles _ _ _ roots h

/-- The forest of a walk, and the edges that wait to be released into it. -/
structure Planted (t : Terrain) (w : Walk) : Prop where
  forest : Forest (t.Seed .syntheticTree) w.run (w.run.visitOrder w.visitedCount)
  anchored : ∀ Q, ∀ e ∈ w.queues.pending Q,
    e.Anchored (t.Seed .syntheticTree) w.run (w.run.visitOrder w.visitedCount)

variable {segment : Phase → List ObjectId} {rest held : List ObjectId} {id : ObjectId}

theorem Planted.visit (h : Planted t w) (hinv : Inv t fresh w segment (next ++ id :: rest) held) :
    Planted t (w.visit t next id).1 := by
  have hopen : id ∈ next ++ id :: rest := List.mem_append_right next List.mem_cons_self
  have hid := hinv.claimed_of_open hopen
  obtain ⟨-, hiff, -⟩ := claims_ledger (t := t) hinv.ledger (hinv.ne_zero_of_open hopen)
  obtain ⟨q, nominated, summary, heq, hpending, -⟩ := visit_eq t w next id
  have horder := hinv.visitOrder_visit
  have hforest : Forest (t.Seed .syntheticTree) (w.claims t id).run
      (w.run.visitOrder w.visitedCount ++ [id]) :=
    Claims.forest_followAll (c := { run := w.run }) _ 0 (h.forest.visit hid)
      (List.mem_append_right _ List.mem_cons_self)
  rw [heq] at horder ⊢
  refine ⟨?_, fun Q e he => ?_⟩
  · rw [horder]
    exact hforest.of_parents rfl rfl
  · rw [horder]
    rw [hpending] at he
    rcases List.mem_append.mp he with he | he
    · exact (h.anchored Q e he).mono (fun v hv => (hiff v).mpr (Or.inl hv)) (List.subset_append_left _ _)
    · obtain ⟨r, v, -, -, -, -, -, -, -, rfl⟩ := Terrain.mem_deferred_iff.mp he
      exact List.mem_append_right _ List.mem_cons_self

theorem Planted.passOver (h : Planted t w) (hid : w.run.IsClaimed id) : Planted t (w.passOver t id) := by
  unfold Walk.passOver
  split
  · exact h
  · split
    · exact h
    · refine ⟨h.forest, fun Q e he => ?_⟩
      rw [PhaseQueues.pending_defer] at he
      split at he
      · next hQ =>
        rcases List.mem_append.mp he with he | he
        · exact h.anchored .cleanupReferences e he
        · rw [List.mem_singleton.mp he]
          exact Or.inr hid
      · exact h.anchored Q e he

theorem Planted.advance (h : Planted t w) : Planted t (w.advance t) := by
  let released := (releaseAll t w.entering [] (w.queues.pending w.phase.next)).1
  have hforest : Forest (t.Seed .syntheticTree) released.run (w.run.visitOrder w.visitedCount) :=
    forest_releaseAll h.forest (h.anchored w.phase.next)
  have hclaimed : ∀ v, w.run.IsClaimed v → released.run.IsClaimed v := by
    intro v hv
    apply releaseAll_claimed
    exact hv
  have hpending : ∀ Q e, e ∈ (w.queues.replace w.phase.next []).pending Q → e ∈ w.queues.pending Q := by
    intro Q e he
    rw [show (w.queues.replace w.phase.next []).pending Q = _ from w.queues.pending_advance w.phase Q] at he
    split at he
    · exact absurd he List.not_mem_nil
    · exact he
  -- the order of visits is not touched by releases
  obtain ⟨run, roots, ⟨parents, roles, rfl⟩, heq⟩ :=
    releaseAll_eq t w.entering [] (w.queues.pending w.phase.next)
  simp only [released, heq] at hforest hclaimed
  rw [advance_eq, heq]
  exact ⟨hforest, fun Q e he => (h.anchored Q e (hpending Q e he)).mono hclaimed fun _ hv => hv⟩

/-- Every step of a walk keeps the forest. -/
theorem kept_planted (t : Terrain) (fresh : Run) : Kept t fresh (Planted t) where
  frontier _ h _ := ⟨h.forest, h.anchored⟩
  visit hinv _ h := h.visit hinv
  passOver hinv _ h := h.passOver (hinv.claimed_of_open (List.mem_append_right _ List.mem_cons_self))
  advance _ _ h := h.advance

theorem Planted.claimRoot (h : Planted t w) (hs : t.Seed .syntheticTree id) :
    Planted t (w.claimRoot id) := by
  by_cases hu : w.run.isUnclaimed id = true
  · rw [claimRoot_eq w id hu]
    exact ⟨h.forest.claim hu (Or.inl ⟨rfl, hs⟩),
      fun Q e he => (h.anchored Q e he).mono (fun v hv => hv.claim hu) fun _ hv => hv⟩
  · rw [show w.claimRoot id = w from if_neg hu]
    exact h

theorem Planted.defer (h : Planted t w) (Q : Phase) (e : PendingEdge)
    (he : e.Anchored (t.Seed .syntheticTree) w.run (w.run.visitOrder w.visitedCount)) :
    Planted t { w with queues := w.queues.defer Q e } := by
  refine ⟨h.forest, fun R e' he' => ?_⟩
  rw [PhaseQueues.pending_defer] at he'
  split at he'
  · rcases List.mem_append.mp he' with he' | he'
    · exact h.anchored Q e' he'
    · exact List.mem_singleton.mp he' ▸ he
  · exact h.anchored R e' he'

theorem Planted.addRoot {r : GcRoot} (h : Planted t w) (hr : r ∈ t.graph.roots) :
    Planted t (w.addRoot r) := by
  unfold Walk.addRoot
  split
  · next hstack =>
    split
    · have hdone := h.defer .strongLocal (.root r.id) (.stack hr hstack (by decide))
      exact ⟨hdone.forest, hdone.anchored⟩
    · exact h
  · next hplain => exact h.claimRoot (.root hr (by simpa using hplain))

theorem Planted.addRoots {roots : List GcRoot} (h : Planted t w) (hroots : ∀ r ∈ roots, r ∈ t.graph.roots) :
    Planted t (roots.foldl Walk.addRoot w) := by
  induction roots generalizing w with
  | nil => exact h
  | cons r roots ih =>
    apply ih (h.addRoot (hroots r List.mem_cons_self))
    exact fun r' hr' => hroots r' (List.mem_cons_of_mem r hr')

theorem Planted.claimRoots {ids : List ObjectId} (h : Planted t w)
    (hids : ∀ id ∈ ids, t.Seed .syntheticTree id) : Planted t (ids.foldl Walk.claimRoot w) := by
  induction ids generalizing w with
  | nil => exact h
  | cons id ids ih =>
    apply ih (h.claimRoot (hids id List.mem_cons_self))
    exact fun v hv => hids v (List.mem_cons_of_mem id hv)

/-- A walk starts with nothing visited and with seeds that are their own parents. -/
theorem planted_start (hf : fresh.IsFresh) (nominated : List ClassId) :
    Planted t (start t fresh nominated) := by
  have hblank : Planted t { run := fresh, nominated := nominated.map fun id => (id, []) } := by
    have hnone := hf.not_isClaimed
    refine ⟨⟨fun id hid => absurd hid List.not_mem_nil, fun id hid => absurd hid (hnone id),
      fun id hid => absurd hid (hnone id), fun i id hi => nomatch hi⟩, fun Q e he => ?_⟩
    cases Q <;> exact absurd he List.not_mem_nil
  have hheld : ∀ id ∈ t.graph.classes.toList.flatMap ClassDefinition.held, t.Seed .syntheticTree id := by
    intro id hid
    obtain ⟨c, hc, hid⟩ := List.mem_flatMap.mp hid
    exact .held hc hid
  have hall := (hblank.addRoots fun _ hr => hr).claimRoots hheld
  unfold start
  dsimp only
  split
  · exact ⟨hall.forest, hall.anchored⟩
  · have hdone := hall.defer .syntheticTree (.revisit t.sentinel) (Or.inl (.sentinel (Phase.le_refl _)))
    exact ⟨hdone.forest, hdone.anchored⟩

end Walk
end HeapRetention
