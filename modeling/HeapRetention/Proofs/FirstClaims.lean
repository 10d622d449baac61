import HeapRetention.Proofs.ClaimStories
import HeapRetention.Proofs.SpanningForest

/-! Parents and roles tell the truth about the first claim. An object that is its own parent has no role. Any
other has as its parent the first object that had an edge to it when it was visited, or the first one whose
referent of the phase at hand it is; and its role names the reference that was followed. -/
namespace HeapRetention

namespace Terrain
variable {t : Terrain} {P Q : Phase} {u id : ObjectId} {isValid : ObjectId → Bool}

theorem deferred_of_phase_ne {r : ReferentSlot} (hr : t.graph.referentSlot? id = some r)
    (hne : r.strength.phase ≠ Q) : t.deferred isValid P id Q = [] := by
  apply List.eq_nil_iff_forall_not_mem.mpr
  intro e he
  obtain ⟨r', -, hr', -, -, -, hphase, -⟩ := mem_deferred_iff.mp he
  rw [hr] at hr'
  cases hr'
  exact hne hphase

/-- What is put off until a phase does not depend on the phase before it in which the visit comes. -/
theorem deferred_of_lt (h : P < Q) :
    t.deferred isValid P id Q = t.deferred isValid .strongNonLocal id Q := by
  have hfirst : Phase.strongNonLocal < Q := Nat.lt_of_le_of_lt (Nat.zero_le P.rank) h
  cases hr : t.graph.referentSlot? id with
  | none =>
    unfold deferred
    rw [postponedReferent?_of_none hr, postponedReferent?_of_none hr]
  | some r =>
    by_cases hphase : r.strength.phase = Q
    · unfold deferred
      rw [postponedReferent?_of_some hr, postponedReferent?_of_some hr, hphase]
      simp only [h, hfirst]
    · rw [deferred_of_phase_ne hr hphase, deferred_of_phase_ne hr hphase]

/-- Whoever puts a referent off is the holder of the edge. -/
theorem holder_of_deferred {v holder : ObjectId} {role : Role}
    (h : .referent v holder role ∈ t.deferred isValid P id Q) : holder = id := by
  obtain ⟨r, v', -, -, -, -, -, -, -, heq⟩ := mem_deferred_iff.mp h
  injection heq

/-- A referent waits for the phase of its strength, if it waits at all. -/
theorem referent_mem_deferred_iff {v : ObjectId} (hv : v ≠ 0) {s : ReferentStrength} {role : Role} :
    .referent v u role ∈ t.deferred isValid .strongNonLocal u s.phase ↔
      t.graph.referent s u = v ∧ role = s.role ∧ t.options.onlyStrongReferences = false ∧ isValid v = true := by
  constructor
  · intro h
    obtain ⟨r, v', hr, -, hget, -, hphase, honly, hvalid, hedge⟩ := mem_deferred_iff.mp h
    injection hedge with hv' _ hrole
    subst hv'
    have hstrength : r.strength = s := by
      cases hr' : r.strength <;> cases s <;> rw [hr'] at hphase <;> first | rfl | cases hphase
    rw [hstrength] at hrole
    exact ⟨(referent_eq_iff hv).mpr ⟨r, hr, hstrength, hget⟩, hrole, honly, hvalid⟩
  · rintro ⟨hreferent, rfl, honly, hvalid⟩
    obtain ⟨r, hr, rfl, hget⟩ := (referent_eq_iff hv).mp hreferent
    refine mem_deferred_iff.mpr ⟨r, v, hr, hv, hget, ?_, rfl, honly, hvalid, rfl⟩
    cases r.strength <;> decide

end Terrain

theorem Run.IsFresh.roles_blank {fresh : Run} (h : fresh.IsFresh) :
    fresh.roles = .create (fresh.objectCount + 2) := by
  obtain ⟨config, count, tree?, space, h⟩ := h
  unfold Run.create at h
  split at h
  · cases h
  · cases h
    rfl

namespace Walk
variable {t : Terrain} {fresh : Run} {w : Walk} {segment : Phase → List ObjectId}
  {next rest held : List ObjectId} {id : ObjectId}

/-- An object is visited in the phase that reaches it first. -/
theorem Inv.metIn_of_open (h : Inv t fresh w segment (next ++ id :: rest) held)
    (hpass : ¬t.passesOver w.phase id = true) : t.MetIn fresh.objectCount w.phase id := by
  have hopen : id ∈ next ++ id :: rest := List.mem_append_right next List.mem_cons_self
  have hcandidate := h.justified id (h.claimed_of_open hopen)
  refine ⟨hcandidate.reach (h.admits_of_open hopen hpass), ?_⟩
  intro Q hQ hreach
  obtain ⟨R, -, hR⟩ := (h.layers Q hQ id).mpr hreach
  -- an open object has not been visited yet
  have hseen : id ∈ Phase.gather segment := Phase.mem_gather.mpr ⟨R, hR⟩
  have hdisjoint := (List.nodup_append.mp h.ledger.nodup).2.2
  exact hdisjoint id hseen id (List.mem_append_left held hopen) rfl

theorem Inv.reach_of_mem {opened : List ObjectId} (h : Inv t fresh w segment opened held)
    (hid : id ∈ Phase.gather segment) : t.Reach fresh.objectCount w.phase id :=
  (h.justified id (h.ledger.claimed id (List.mem_append_left _ hid))).reach (h.admitted id hid)

/-- No visited object had an edge to what is still unclaimed. -/
theorem Inv.not_hadEdge {opened : List ObjectId} {x : ObjectId} (h : Inv t fresh w segment opened held)
    (hx : w.run.isUnclaimed x = true) (hid : id ∈ Phase.gather segment) :
    ¬t.HadEdge fresh.objectCount id x := by
  rintro ⟨P, hmet, hedge⟩
  obtain ⟨hvalid, hunclaimed⟩ := (w.run.isUnclaimed_iff x).mp hx
  have hle : P ≤ w.phase := Phase.not_lt.mp fun hlt => hmet.2 w.phase hlt (h.reach_of_mem hid)
  have hin := (h.ledger.valid_iff x).mp hvalid
  exact hunclaimed (h.queued.edges w.phase (Phase.le_refl _) id hid x hin (hedge.mono hle)).claimed

/-- A walk whose claims tell how they came about, and whose queues have the referents of the visited objects
in the order of their visits. -/
structure Truthful (t : Terrain) (fresh : Run) (w : Walk) : Prop where
  tells : Tells t fresh (w.run.visitOrder w.visitedCount) w.run
  waiting : ∀ s : ReferentStrength, w.phase < s.phase → w.queues.pending s.phase =
    (w.run.visitOrder w.visitedCount).flatMap fun u => t.deferred fresh.isValid .strongNonLocal u s.phase
  referents : ∀ Q v holder role, .referent v holder role ∈ w.queues.pending Q →
    ∃ s : ReferentStrength, s.phase = Q

/-- The story of a claim that a visit makes. -/
theorem Inv.told_of_visit {i : Nat} {x : ObjectId} (h : Inv t fresh w segment (next ++ id :: rest) held)
    (hpass : ¬t.passesOver w.phase id = true) (hget : (t.targets fresh.isValid w.phase id)[i]? = some x)
    (hleast : ∀ j, j < i → (t.targets fresh.isValid w.phase id)[j]? ≠ some x)
    (hx : w.run.isUnclaimed x = true) :
    Told t fresh (Phase.gather segment ++ [id]) x id
      (Role.forSlot (t.graph.classes.isArray (t.graph.classOf id)) i
        (t.followedSlots fresh.isValid w.phase id).length).encode := by
  have hopen : id ∈ next ++ id :: rest := List.mem_append_right next List.mem_cons_self
  obtain ⟨hvalid, hunclaimed⟩ := (w.run.isUnclaimed_iff x).mp hx
  have hx0 : x ≠ 0 := Nat.pos_iff_ne_zero.mp ((h.ledger.valid_iff x).mp hvalid).1
  have hmet := h.metIn_of_open hpass
  have hedge : t.OutEdge w.phase id x := by
    rw [h.isValid_eq] at hvalid
    exact (Terrain.mem_followed_iff hvalid hx0 (h.phase_le_of_strongOnly hopen)).mp (List.mem_of_getElem? hget)
  have hne : id ≠ x := by
    rintro rfl
    exact hunclaimed (h.claimed_of_open hopen)
  have hfirst : First (Phase.gather segment ++ [id]) (t.HadEdge fresh.objectCount · x) id :=
    .last ⟨w.phase, hmet, hedge⟩ fun q hq => h.not_hadEdge hx hq
  exact .edge hne hfirst hmet hget hleast rfl

theorem Truthful.visit (hinfo : t.options.includeFieldInformation = true)
    (h : Inv t fresh w segment (next ++ id :: rest) held) (hpass : ¬t.passesOver w.phase id = true)
    (hw : Truthful t fresh w) : Truthful t fresh (w.visit t next id).1 := by
  have hopen : id ∈ next ++ id :: rest := List.mem_append_right next List.mem_cons_self
  have hne := h.ne_zero_of_open hopen
  obtain ⟨q, nominated, summary, heq, hpending, -⟩ := visit_eq t w next id
  have horder := h.visitOrder_visit
  obtain ⟨htells, hwaiting, hreferents⟩ := hw
  rw [h.visits.order] at htells hwaiting horder
  rw [h.isValid_eq] at hpending
  have hclaims : Tells t fresh (Phase.gather segment ++ [id]) (w.claims t id).run := by
    unfold Walk.claims
    rw [h.isValid_eq, hinfo]
    have hstart : ∀ v, w.run.isUnclaimed v = true → w.run.isUnclaimed v = true ∧ v ∉ ([] : List ObjectId) :=
      fun v hv => ⟨hv, List.not_mem_nil⟩
    exact Claims.tells_followAll _ hne (fun i v hget hleast hv => h.told_of_visit hpass hget hleast hv) _ []
      { run := w.run } rfl (htells.append [id]) hstart
  rw [heq] at horder ⊢
  exact {
    tells := by
      rw [horder]
      exact ⟨hclaims.objectCount, hclaims.parents, hclaims.roles, hclaims.blank, hclaims.told⟩
    waiting := by
      intro s hs
      rw [horder, List.flatMap_append, hpending, hwaiting s hs, Terrain.deferred_of_lt hs]
      rw [List.flatMap_singleton]
    referents := by
      intro Q v holder role hmem
      rw [hpending] at hmem
      rcases List.mem_append.mp hmem with hold | hnew
      · exact hreferents Q v holder role hold
      · obtain ⟨r, -, -, -, -, -, hphase, -⟩ := Terrain.mem_deferred_iff.mp hnew
        exact ⟨r.strength, hphase⟩ }

/-- What is no referent may wait for a phase that releases no referents. -/
theorem Truthful.defer (hw : Truthful t fresh w) {Q : Phase} {e : PendingEdge}
    (hQ : ∀ s : ReferentStrength, s.phase ≠ Q) (he : ∀ v holder role, e ≠ .referent v holder role) :
    Truthful t fresh { w with queues := w.queues.defer Q e } := by
  refine ⟨hw.tells, ?_, ?_⟩
  · intro s hs
    dsimp only
    rw [PhaseQueues.pending_defer, if_neg (hQ s)]
    exact hw.waiting s hs
  · intro R v holder role hmem
    dsimp only at hmem
    rw [PhaseQueues.pending_defer] at hmem
    split at hmem
    · next hR =>
      subst hR
      rcases List.mem_append.mp hmem with hold | hnew
      · exact hw.referents _ v holder role hold
      · exact absurd (List.mem_singleton.mp hnew).symm (he v holder role)
    · exact hw.referents R v holder role hmem

theorem Truthful.passOver (hw : Truthful t fresh w) : Truthful t fresh (w.passOver t id) := by
  unfold Walk.passOver
  split
  · exact hw
  · split
    · exact hw
    · apply hw.defer
      · intro s
        cases s <;> decide
      · exact fun _ _ _ he => nomatch he

/-- The queue of a phase releases each referent for the first object that waits for it. -/
theorem Truthful.ready (h : Inv t fresh w segment [] held) (hP : w.phase ≠ .finished)
    (hw : Truthful t fresh w) :
    Ready t fresh (w.run.visitOrder w.visitedCount) w.run (w.queues.pending w.phase.next) := by
  intro before v holder role after heq hbefore hv
  have hmem : .referent v holder role ∈ w.queues.pending w.phase.next := by
    rw [heq]
    exact List.mem_append_right _ List.mem_cons_self
  obtain ⟨s, hs⟩ := hw.referents _ v holder role hmem
  have hlater : w.phase < s.phase := by
    rw [hs]
    exact Phase.lt_next hP
  obtain ⟨hvalid, hunclaimed⟩ := (w.run.isUnclaimed_iff v).mp hv
  have hv0 : v ≠ 0 := Nat.pos_iff_ne_zero.mp ((h.ledger.valid_iff v).mp hvalid).1
  -- the first edge for the object in the queue is that of the first visited object that put it off
  have hfind : (w.queues.pending s.phase).find? (·.target == v) = some (.referent v holder role) := by
    rw [hs, List.find?_eq_some_iff_append]
    refine ⟨beq_self_eq_true v, before, after, heq, ?_⟩
    intro e he
    simpa using hbefore e he
  rw [hw.waiting s hlater, List.find?_flatMap, List.findSome?_eq_some_iff] at hfind
  obtain ⟨earlier, u, later, horder, hu, hnone⟩ := hfind
  have hput := List.mem_of_find?_eq_some hu
  obtain rfl := Terrain.holder_of_deferred hput
  obtain ⟨hreferent, rfl, honly, -⟩ := (Terrain.referent_mem_deferred_iff hv0).mp hput
  have hseen : holder ∈ Phase.gather segment := by
    rw [← h.visits.order, horder]
    exact List.mem_append_right _ List.mem_cons_self
  have hclaimed := h.ledger.claimed holder (List.mem_append_left _ hseen)
  have hne : holder ≠ v := by
    rintro rfl
    exact hunclaimed hclaimed
  obtain ⟨P, hle, hmet⟩ := (h.reach_of_mem hseen).exists_metIn
  refine ⟨Nat.pos_iff_ne_zero.mp ((h.ledger.valid_iff holder).mp hclaimed.1).1, ?_⟩
  refine .referent hne ⟨earlier, later, horder, ?_, ?_⟩ rfl
  · exact ⟨honly, ⟨P, hmet, Nat.lt_of_le_of_lt hle hlater⟩, hreferent⟩
  · rintro q hq ⟨-, -, hother⟩
    have hearlier : .referent v q s.role ∈ t.deferred fresh.isValid .strongNonLocal q s.phase :=
      (Terrain.referent_mem_deferred_iff hv0).mpr ⟨hother, rfl, honly, h.isValid_eq ▸ hvalid⟩
    exact List.find?_eq_none.mp (hnone q hq) _ hearlier (beq_self_eq_true v)

theorem Truthful.advance (hinfo : t.options.includeFieldInformation = true)
    (h : Inv t fresh w segment [] held) (hP : w.phase ≠ .finished) (hw : Truthful t fresh w) :
    Truthful t fresh (w.advance t) := by
  have hready := hw.ready h hP
  have htells := @tells_releaseAll _ _ _ w.entering [] hinfo _ hw.tells hready
  obtain ⟨run, roots, hsame, heq⟩ := releaseAll_eq t w.entering [] (w.queues.pending w.phase.next)
  have hpending : ∀ Q, (w.queues.replace w.phase.next []).pending Q =
      if Q = w.phase.next then [] else w.queues.pending Q := fun Q => w.queues.pending_advance w.phase Q
  rw [heq] at htells
  rw [advance_eq, heq]
  -- releases leave the order of visits alone
  obtain ⟨parents, roles, rfl⟩ := hsame
  refine ⟨htells, ?_, ?_⟩
  · intro s hs
    have hne : s.phase ≠ w.phase.next := fun he => Nat.lt_irrefl s.phase.rank (he ▸ hs)
    have hlater : w.phase < s.phase := Nat.lt_trans (Phase.lt_next hP) hs
    change (w.queues.replace w.phase.next []).pending s.phase = _
    rw [hpending, if_neg hne]
    exact hw.waiting s hlater
  · intro Q v holder role hmem
    change _ ∈ (w.queues.replace w.phase.next []).pending Q at hmem
    rw [hpending] at hmem
    split at hmem
    · exact absurd hmem List.not_mem_nil
    · exact hw.referents Q v holder role hmem

theorem kept_truthful (hinfo : t.options.includeFieldInformation = true) (fresh : Run) :
    Kept t fresh (Truthful t fresh) where
  frontier _ h _ := ⟨h.tells, h.waiting, h.referents⟩
  visit hw hpass h := h.visit hinfo hw hpass
  passOver _ _ h := h.passOver
  advance hw hP h := h.advance hinfo hw hP

theorem Truthful.claimRoot (hw : Truthful t fresh w) : Truthful t fresh (w.claimRoot id) := by
  by_cases hu : w.run.isUnclaimed id = true
  · rw [claimRoot_eq w id hu]
    exact ⟨(hw.tells.claimRoot hu).1, hw.waiting, hw.referents⟩
  · rw [show w.claimRoot id = w from if_neg hu]
    exact hw

theorem Truthful.addRoot (hw : Truthful t fresh w) (r : GcRoot) : Truthful t fresh (w.addRoot r) := by
  unfold Walk.addRoot
  split
  · split
    · have hdeferred := @Truthful.defer _ _ _ hw .strongLocal (.root r.id) (fun s => by cases s <;> decide)
        fun _ _ _ he => nomatch he
      exact ⟨hdeferred.tells, hdeferred.waiting, hdeferred.referents⟩
    · exact hw
  · exact hw.claimRoot

/-- A walk starts with roots that tell so, and with no referent in its queues. -/
theorem truthful_start (hf : fresh.IsFresh) (nominated : List ClassId) :
    Truthful t fresh (start t fresh nominated) := by
  have hblank : Truthful t fresh { run := fresh, nominated := nominated.map fun id => (id, []) } := by
    obtain ⟨hparents, -, -⟩ := hf.blank
    have hroles := hf.roles_blank
    exact {
      tells.objectCount := rfl
      tells.parents := by rw [hparents, Slots.capacity_create]
      tells.roles := by rw [hroles, Slots.capacity_create]
      tells.blank := fun x _ => by
        rw [hroles]
        exact Slots.get_create _ x
      tells.told := fun x hx => absurd hx (hf.not_isClaimed x)
      waiting := fun s _ => by cases s <;> rfl
      referents := fun Q v holder role hmem => by
        cases Q <;> exact absurd hmem List.not_mem_nil }
  have hroots : ∀ (roots : List GcRoot) (w : Walk), Truthful t fresh w →
      Truthful t fresh (roots.foldl Walk.addRoot w) := by
    intro roots
    induction roots with
    | nil => exact fun _ hw => hw
    | cons r roots ih => exact fun w hw => ih _ (hw.addRoot r)
  have hheld : ∀ (ids : List ObjectId) (w : Walk), Truthful t fresh w →
      Truthful t fresh (ids.foldl Walk.claimRoot w) := by
    intro ids
    induction ids with
    | nil => exact fun _ hw => hw
    | cons id ids ih => exact fun w hw => ih _ hw.claimRoot
  have hall := hheld (t.graph.classes.toList.flatMap ClassDefinition.held) _ (hroots t.graph.roots _ hblank)
  unfold start
  dsimp only
  split
  · exact ⟨hall.tells, hall.waiting, hall.referents⟩
  · have hdeferred := @Truthful.defer _ _ _ hall .syntheticTree (.revisit t.sentinel)
      (fun s => by cases s <;> decide) fun _ _ _ he => nomatch he
    exact ⟨hdeferred.tells, hdeferred.waiting, hdeferred.referents⟩

end Walk

/-- What the parent `p` of an object `x` and its role say about the first claim. -/
structure FirstClaim (t : Terrain) (count : Nat) (order : List ObjectId) (x p : ObjectId)
    (role? : Option Role) : Prop where
  root : role? = none ↔ p = x
  edge : p ≠ x → (∀ s : ReferentStrength, role? ≠ some s.role) → First order (t.HadEdge count · x) p
  /-- Of the objects whose referent waited for this very phase, the parent is the first. -/
  referent : ∀ s : ReferentStrength, role? = some s.role →
    t.graph.referent s p = x ∧ First order (t.PutOff count s · x) p
  child : role? = some .syntheticTreeChild →
    x ∈ (t.syntheticChildren? p).getD [] ∧ ∀ P i, t.MetIn count P p → ¬t.Follows P p i x
  element : role? = some .arrayElement →
    t.graph.classes.isArray (t.graph.classOf p) = true ∧ ∃ P i, t.MetIn count P p ∧ t.Follows P p i x
  field : ∀ i, role? = some (.field i) →
    t.graph.classes.isArray (t.graph.classOf p) = false ∧ i < 250 ∧
      ∃ P, t.MetIn count P p ∧ t.Follows P p i x ∧ ∀ j, j < i → ¬t.Follows P p j x
  omitted : role? = some .fieldOmitted →
    t.graph.classes.isArray (t.graph.classOf p) = false ∧
      ∃ P i, t.MetIn count P p ∧ 250 ≤ i ∧ t.Follows P p i x ∧ ∀ j, j < i → ¬t.Follows P p j x

section
variable {t : Terrain} {fresh : Run} {order : List ObjectId} {x p i : Nat} {P : Phase}

theorem Role.decode?_encode_strength (s : ReferentStrength) : Role.decode? s.role.encode = some s.role := by
  cases s <;> rfl

/-- What the role of a slot says about the slot. -/
theorem Role.forSlot_cases (isArray : Bool) (index fieldCount : Nat) :
    (fieldCount ≤ index ∧ forSlot isArray index fieldCount = .syntheticTreeChild) ∨
      (index < fieldCount ∧ isArray = true ∧ forSlot isArray index fieldCount = .arrayElement) ∨
      (index < fieldCount ∧ isArray = false ∧ index < 250 ∧ forSlot isArray index fieldCount = .field index) ∨
      (index < fieldCount ∧ isArray = false ∧ 250 ≤ index ∧
        forSlot isArray index fieldCount = .fieldOmitted) := by
  unfold forSlot fieldLimit
  by_cases hchild : fieldCount ≤ index
  · rw [if_pos hchild]
    exact Or.inl ⟨hchild, rfl⟩
  rw [if_neg hchild]
  have hlt := Nat.not_le.mp hchild
  cases isArray with
  | true => exact Or.inr (Or.inl ⟨hlt, rfl, rfl⟩)
  | false =>
    by_cases hfield : index < 250
    · rw [if_pos hfield]
      exact Or.inr (Or.inr (Or.inl ⟨hlt, rfl, hfield, rfl⟩))
    · rw [if_neg hfield]
      exact Or.inr (Or.inr (Or.inr ⟨hlt, rfl, Nat.not_lt.mp hfield, rfl⟩))

theorem FirstClaim.of_edge (hx : fresh.isValid x = true) (hne : p ≠ x)
    (hfirst : First order (t.HadEdge fresh.objectCount · x) p) (hmet : t.MetIn fresh.objectCount P p)
    (hget : (t.targets fresh.isValid P p)[i]? = some x)
    (hleast : ∀ j, j < i → (t.targets fresh.isValid P p)[j]? ≠ some x) :
    FirstClaim t fresh.objectCount order x p
      (some (.forSlot (t.graph.classes.isArray (t.graph.classOf p)) i
        (t.followedSlots fresh.isValid P p).length)) := by
  have hx0 : x ≠ 0 := Nat.pos_iff_ne_zero.mp ((fresh.isValid_iff x).mp hx).1
  have hslot : ∀ j, (t.followedSlots fresh.isValid P p)[j]? = some x ↔ t.Follows P p j x :=
    fun j => (Terrain.getElem?_followedSlots_iff hx0).trans (and_iff_right hx)
  have hnone : ∀ j, j < i → ¬t.Follows P p j x := by
    intro j hj hfollow
    have hin := (hslot j).mpr hfollow
    have hlen := (List.getElem?_eq_some_iff.mp hin).1
    apply hleast j hj
    rw [Terrain.targets, List.getElem?_append_left hlen]
    exact hin
  have hfollow : i < (t.followedSlots fresh.isValid P p).length → t.Follows P p i x := by
    intro hlt
    rw [Terrain.targets, List.getElem?_append_left hlt] at hget
    exact (hslot i).mp hget
  rcases Role.forSlot_cases (t.graph.classes.isArray (t.graph.classOf p)) i
    (t.followedSlots fresh.isValid P p).length with
    ⟨hle, heq⟩ | ⟨hlt, harray, heq⟩ | ⟨hlt, hplain, hlow, heq⟩ | ⟨hlt, hplain, hhigh, heq⟩ <;> rw [heq]
  · -- a child that comes behind all slots is in none of them
    refine ⟨iff_of_false nofun hne, fun _ _ => hfirst, fun s hs => ?_, fun _ => ⟨?_, ?_⟩, nofun, nofun, nofun⟩
    · cases s <;> cases hs
    · rw [Terrain.targets, List.getElem?_append_right hle] at hget
      exact List.mem_of_getElem? hget
    · intro Q j hQ hj
      rw [← hmet.unique hQ] at hj
      have hlen := (List.getElem?_eq_some_iff.mp ((hslot j).mpr hj)).1
      exact hnone j (Nat.lt_of_lt_of_le hlen hle) hj
  · refine ⟨iff_of_false nofun hne, fun _ _ => hfirst, fun s hs => ?_, nofun, fun _ => ?_, nofun, nofun⟩
    · cases s <;> cases hs
    · exact ⟨harray, P, i, hmet, hfollow hlt⟩
  · refine ⟨iff_of_false nofun hne, fun _ _ => hfirst, fun s hs => ?_, nofun, nofun, fun k hk => ?_, nofun⟩
    · cases s <;> cases hs
    · cases hk
      exact ⟨hplain, hlow, P, hmet, hfollow hlt, hnone⟩
  · refine ⟨iff_of_false nofun hne, fun _ _ => hfirst, fun s hs => ?_, nofun, nofun, nofun, fun _ => ?_⟩
    · cases s <;> cases hs
    · exact ⟨hplain, P, i, hmet, hhigh, hfollow hlt, hnone⟩

theorem FirstClaim.of_told {code : Nat} (hx : fresh.isValid x = true) (h : Told t fresh order x p code) :
    FirstClaim t fresh.objectCount order x p (Role.decode? code) := by
  cases h with
  | root hp hcode =>
    rw [hcode]
    exact ⟨iff_of_true rfl hp, fun hne _ => absurd hp hne, nofun, nofun, nofun, nofun, nofun⟩
  | edge hne hfirst hmet hget hleast hcode =>
    rw [hcode, Role.decode?_encode_forSlot]
    exact .of_edge hx hne hfirst hmet hget hleast
  | @referent s hne hfirst hcode =>
    rw [hcode, Role.decode?_encode_strength]
    have hreferent : t.graph.referent s p = x := by
      obtain ⟨-, -, -, ⟨-, -, heq⟩, -⟩ := hfirst
      exact heq
    refine ⟨iff_of_false nofun hne, fun _ hno => absurd rfl (hno s), fun s' hs => ?_, ?_, ?_, ?_, ?_⟩
    · have hsame : s = s' := by
        cases s <;> cases s' <;> first | rfl | cases hs
      exact hsame ▸ ⟨hreferent, hfirst⟩
    all_goals cases s <;> nofun

end

/-- What stands in the lists about a claimed object tells how it was claimed. -/
theorem told_of_parent? {graph : HeapGraph} {fresh run : Run} {traversal : Traversal} (hf : fresh.IsFresh)
    (hinfo : fresh.config.traverse.includeFieldInformation = true)
    (ht : Traversed graph fresh run traversal) {x p : ObjectId} (hp : run.parent? x = some p) :
    fresh.isValid x = true ∧ run.role? x = Role.decode? (run.roles.get x) ∧
      Told (.of graph fresh) fresh (run.visitOrder traversal.visitedCount) x p (run.roles.get x) := by
  have hk := Walk.kept_truthful (t := .of graph fresh) hinfo fresh
  obtain ⟨w, segment, held, hw, -, htruthful, rfl, hresult⟩ :=
    exists_walk_keeping hk (Walk.truthful_start hf _) hf ht
  obtain ⟨hclaimed, rfl⟩ := Run.parent?_eq_some_iff.mp hp
  have hvalid := hclaimed.1
  have hrole : w.run.role? x = Role.decode? (w.run.roles.get x) := if_pos hvalid
  rw [hw.isValid_eq] at hvalid
  rw [(Walk.traversal_eq hresult).1]
  exact ⟨hvalid, hrole, htruthful.tells.told x hclaimed⟩

/-- Parents and roles tell the truth about the first claim of every claimed object. -/
theorem traverse_firstClaims {graph : HeapGraph} {fresh run : Run} {traversal : Traversal} (hf : fresh.IsFresh)
    (hinfo : fresh.config.traverse.includeFieldInformation = true)
    (ht : Traversed graph fresh run traversal) {x p : ObjectId} (hp : run.parent? x = some p) :
    FirstClaim (.of graph fresh) fresh.objectCount (run.visitOrder traversal.visitedCount) x p
      (run.role? x) := by
  obtain ⟨hvalid, hrole, htold⟩ := told_of_parent? hf hinfo ht hp
  rw [hrole]
  exact .of_told hvalid htold

/-- A heap in which a weak and a soft reference contend for an object; the weak one is visited first. -/
def contendedHeap : HeapGraph where
  classes := .ofList [{ name := "Node" }]
  objects := #[
    { classId := 1, size := 4, references := [2, 3] },
    { classId := 1, size := 4, references := [4], referent? := some ⟨.weak, 0⟩ },
    { classId := 1, size := 4, references := [4], referent? := some ⟨.soft, 0⟩ },
    { classId := 1, size := 4 }]
  roots := [{ id := 1 }]

def contendedRun : Run where
  config := {}
  objectCount := 4
  parents := .create 6
  sizes := .create 6
  visited := .create 6
  roles := .create 6

set_option maxRecDepth 10000 in
theorem exists_contended : contendedRun.IsFresh ∧ ∃ run traversal,
    Traversed contendedHeap contendedRun run traversal ∧
      run.visitOrder traversal.visitedCount = [1, 2, 3, 4] ∧ run.parent? 4 = some 3 ∧
      run.role? 4 = some .softReference := by
  have hfresh : contendedRun.IsFresh := ⟨{}, 4, none, { available := .ok 1000 }, rfl⟩
  have hrun : (contendedRun.traverse contendedHeap [] {}).run.parent? 4 = some 3 ∧
      (contendedRun.traverse contendedHeap [] {}).run.role? 4 = some .softReference := by
    decide +kernel
  have horder : (contendedRun.traverse contendedHeap [] {}).result.toOption.any (fun traversal =>
      (contendedRun.traverse contendedHeap [] {}).run.visitOrder traversal.visitedCount = [1, 2, 3, 4]) =
        true := by
    decide +kernel
  obtain ⟨traversal, hresult, horder⟩ := exists_ok_of_any horder
  exact ⟨hfresh, _, traversal, traversed_of_result hresult, of_decide_eq_true horder, hrun⟩

theorem traverse_firstClaims_contendedHeap : contendedRun.IsFresh ∧
    contendedRun.config.traverse.includeFieldInformation = true ∧ ∃ run traversal,
      Traversed contendedHeap contendedRun run traversal ∧ run.parent? 4 = some 3 ∧
      FirstClaim (.of contendedHeap contendedRun) 4 [1, 2, 3, 4] 4 3 (some .softReference) := by
  obtain ⟨hfresh, run, traversal, ht, horder, hparent, hrole⟩ := exists_contended
  have hfirst := traverse_firstClaims hfresh rfl ht hparent
  rw [horder, hrole] at hfirst
  exact ⟨hfresh, rfl, run, traversal, ht, hparent, hfirst⟩

theorem metIn_contended (id : ObjectId) (hid : id = 2 ∨ id = 3) :
    (Terrain.of contendedHeap contendedRun).MetIn 4 .strongNonLocal id := by
  have hadmits : ∀ v, v = 1 ∨ v = 2 ∨ v = 3 →
      (Terrain.of contendedHeap contendedRun).Admits .strongNonLocal v := by
    rintro v (rfl | rfl | rfl) <;> exact ⟨nofun, nofun⟩
  have hseed : (Terrain.of contendedHeap contendedRun).Seed .strongNonLocal 1 :=
    @Terrain.Seed.root _ _ { id := 1 } List.mem_cons_self rfl
  have hroot : (Terrain.of contendedHeap contendedRun).Reach 4 .strongNonLocal 1 :=
    .seed hseed ⟨by decide, by decide⟩ (hadmits 1 (Or.inl rfl))
  refine ⟨?_, fun Q hQ => absurd hQ (Nat.not_lt_zero _)⟩
  rcases hid with rfl | rfl
  · have hslot : (Terrain.of contendedHeap contendedRun).OutEdge .strongNonLocal 1 2 :=
      .slot (i := 0) rfl fun r hr => nomatch hr
    exact .step hroot hslot ⟨by decide, by decide⟩ (hadmits 2 (Or.inr (Or.inl rfl)))
  · have hslot : (Terrain.of contendedHeap contendedRun).OutEdge .strongNonLocal 1 3 :=
      .slot (i := 1) rfl fun r hr => nomatch hr
    exact .step hroot hslot ⟨by decide, by decide⟩ (hadmits 3 (Or.inr (Or.inr rfl)))

/-- The parent need not be the first object whose referent had to wait: the weak reference was visited before
the soft one, but the phase of soft references comes first. -/
theorem parent_not_first_putOff : ¬∀ (graph : HeapGraph) (fresh run : Run) (traversal : Traversal) (x p : ObjectId),
    fresh.IsFresh → fresh.config.traverse.includeFieldInformation = true →
    Traversed graph fresh run traversal → run.parent? x = some p → p ≠ x →
      First (run.visitOrder traversal.visitedCount)
          (fun u => (Terrain.of graph fresh).HadEdge fresh.objectCount u x) p ∨
        First (run.visitOrder traversal.visitedCount)
          (fun u => ∃ s, (Terrain.of graph fresh).PutOff fresh.objectCount s u x) p := by
  intro hall
  obtain ⟨hfresh, run, traversal, ht, horder, hparent, -⟩ := exists_contended
  have hclaim := hall _ _ _ _ 4 3 hfresh rfl ht hparent (by decide)
  rw [horder] at hclaim
  rcases hclaim with ⟨-, -, -, ⟨P, hmet, hedge⟩, -⟩ | ⟨before, after, heq, -, hnone⟩
  · -- the soft reference had no edge to its referent when it was visited
    rw [hmet.unique (metIn_contended 3 (Or.inr rfl))] at hedge
    cases hedge with
    | @slot i v hv hi =>
      have hzero : i = 0 := by
        have hlt : i < 1 := (List.getElem?_eq_some_iff.mp hv).1
        omega
      exact hi ⟨.soft, 0⟩ rfl hzero.symm
    | child hv => cases hv
    | referent hr hv hP honly =>
      cases hr
      exact absurd hP (by decide)
  · have hwaits : (Terrain.of contendedHeap contendedRun).PutOff 4 .weak 2 4 :=
      ⟨rfl, ⟨.strongNonLocal, metIn_contended 2 (Or.inl rfl), by decide⟩, rfl⟩
    have hbefore : 2 ∈ before := by
      rcases before with _ | ⟨a, _ | ⟨b, before⟩⟩
      · cases heq
      · cases heq
      · simp only [List.cons_append, List.cons.injEq] at heq
        obtain ⟨-, rfl, -⟩ := heq
        exact List.mem_cons_of_mem _ List.mem_cons_self
    exact hnone 2 hbefore ⟨.weak, hwaits⟩

end HeapRetention
