import HeapRetention.Proofs.Results
import HeapRetention.Proofs.WalkPhases
import HeapRetention.Reach.Traversal

/-! The whole walk. Its start claims the seeds of the first phase and queues those of later ones; turns keep
the state, so a walk that comes to its end has one exact segment for every phase. -/
namespace HeapRetention

/-- A run that no traversal has touched. -/
def Run.IsFresh (fresh : Run) : Prop :=
  ∃ config count tree? space, Run.create config count tree? space = .ok fresh

/-- A traversal of a run that came to its end. -/
def Traversed (graph : HeapGraph) (fresh run : Run) (traversal : Traversal) : Prop :=
  ∃ slices journal journal', fresh.traverse graph slices journal = ⟨run, journal', .ok traversal⟩

variable {t : Terrain} {fresh : Run}

theorem traversed_of_result {graph : HeapGraph} {slices : List Slice} {journal : Journal}
    {traversal : Traversal} (h : (fresh.traverse graph slices journal).result = .ok traversal) :
    Traversed graph fresh (fresh.traverse graph slices journal).run traversal :=
  ⟨slices, journal, (fresh.traverse graph slices journal).journal, by rw [← h]⟩

namespace Walk
variable {w : Walk} {roots : List GcRoot} {ids : List ObjectId} {id : ObjectId}

/-- The walk while its seeds are taken in: `roots` and `ids` were taken in so far. -/
structure Opening (t : Terrain) (fresh : Run) (w : Walk) (roots : List GcRoot) (ids : List ObjectId) :
    Prop where
  same : fresh.SameVisits w.run
  phase : w.phase = .strongNonLocal
  blank : w.visitedCount = 0 ∧ w.strong = {} ∧ w.nonStrong = {} ∧ w.summary = {} ∧ w.crash? = none
  ledger : Ledger w.run fresh.objectCount [] w.frontier [] (t.Spared .strongNonLocal)
  justified : ∀ id, w.run.IsClaimed id → t.Candidate fresh.objectCount .strongNonLocal id
  queue : ∀ e ∈ w.queues.pending .strongLocal,
    ∃ r ∈ t.graph.roots, r.stackFrame = true ∧ e = .root r.id
  others : ∀ Q, Q ≠ .strongLocal → w.queues.pending Q = []
  listed : ∀ id, w.run.IsClaimed id → id ∈ w.roots
  seeds : ∀ id ∈ w.roots, InHeap fresh.objectCount id ∧ t.Seed .strongLocal id
  stack : ∀ r ∈ roots, r.stackFrame = true → InHeap fresh.objectCount r.id →
    r.id ∈ w.roots ∧ .root r.id ∈ w.queues.pending .strongLocal
  plain : ∀ r ∈ roots, r.stackFrame = false → InHeap fresh.objectCount r.id → w.run.IsClaimed r.id
  ids : ∀ id ∈ ids, InHeap fresh.objectCount id → w.run.IsClaimed id

theorem claimRoot_eq (w : Walk) (id : ObjectId) (hu : w.run.isUnclaimed id = true) :
    w.claimRoot id = { w with
      run := w.run.claim id id
      roots := id :: w.roots
      frontier := id :: w.frontier } :=
  if_pos hu

theorem Opening.claimRoot (h : Opening t fresh w roots ids) (hs : t.Seed .strongNonLocal id) :
    Opening t fresh (w.claimRoot id) roots ids ∧
      (InHeap fresh.objectCount id → (w.claimRoot id).run.IsClaimed id) := by
  by_cases hu : w.run.isUnclaimed id = true
  · have hin := (h.ledger.valid_iff id).mp ((w.run.isUnclaimed_iff id).mp hu).1
    have hne : id ≠ 0 := Nat.pos_iff_ne_zero.mp hin.1
    have hiff : ∀ v, (w.run.claim id id).IsClaimed v ↔
        w.run.IsClaimed v ∨ (v = id ∧ InHeap fresh.objectCount v) :=
      fun v => h.ledger.isClaimed_claim_iff hu hne
    have hgrow : ∀ v, w.run.IsClaimed v → (w.run.claim id id).IsClaimed v :=
      fun v hv => (hiff v).mpr (Or.inl hv)
    rw [claimRoot_eq w id hu]
    exact ⟨{
      same := h.same.trans ⟨_, _, rfl⟩
      phase := h.phase
      blank := h.blank
      ledger := h.ledger.claim hu hne
      justified := fun v hv => by
        rcases (hiff v).mp hv with hold | ⟨rfl, hin⟩
        · exact h.justified v hold
        · exact ⟨hin, Or.inl hs⟩
      queue := h.queue
      others := h.others
      listed := fun v hv => by
        rcases (hiff v).mp hv with hold | ⟨rfl, -⟩
        · exact List.mem_cons_of_mem id (h.listed v hold)
        · exact List.mem_cons_self
      seeds := fun v hv => by
        rcases List.mem_cons.mp hv with rfl | hv
        · exact ⟨hin, hs.mono (by decide)⟩
        · exact h.seeds v hv
      stack := fun r hr hstack hin => by
        obtain ⟨hold, hqueued⟩ := h.stack r hr hstack hin
        exact ⟨List.mem_cons_of_mem id hold, hqueued⟩
      plain := fun r hr hs hin => hgrow r.id (h.plain r hr hs hin)
      ids := fun v hv hin => hgrow v (h.ids v hv hin) }, fun _ => (hiff id).mpr (Or.inr ⟨rfl, hin⟩)⟩
  · have heq : w.claimRoot id = w := if_neg hu
    rw [heq]
    refine ⟨h, fun hin => ?_⟩
    by_contra hn
    exact hu ((w.run.isUnclaimed_iff id).mpr ⟨(h.ledger.valid_iff id).mpr hin, hn⟩)

/-- A root that a stack frame holds is listed and waits for its phase. -/
theorem Opening.queueRoot {r : GcRoot} (h : Opening t fresh w roots ids) (hr : r ∈ t.graph.roots)
    (hstack : r.stackFrame = true) (hvalid : w.run.isValid r.id = true) :
    Opening t fresh { w with
      roots := r.id :: w.roots
      queues := w.queues.defer .strongLocal (.root r.id) } (roots ++ [r]) ids := by
  have hself : (w.queues.defer .strongLocal (.root r.id)).pending .strongLocal =
      w.queues.pending .strongLocal ++ [.root r.id] := by
    rw [PhaseQueues.pending_defer, if_pos rfl]
  exact { h with
    queue := fun e he => by
      rw [hself] at he
      rcases List.mem_append.mp he with he | he
      · exact h.queue e he
      · exact ⟨r, hr, hstack, List.mem_singleton.mp he⟩
    others := fun Q hQ => by
      rw [PhaseQueues.pending_defer, if_neg hQ]
      exact h.others Q hQ
    listed := fun v hv => List.mem_cons_of_mem _ (h.listed v hv)
    seeds := fun v hv => by
      rcases List.mem_cons.mp hv with rfl | hv
      · exact ⟨(h.ledger.valid_iff _).mp hvalid, .stack hr hstack (Phase.le_refl _)⟩
      · exact h.seeds v hv
    stack := fun r' hr' hs hin => by
      rw [hself]
      rcases List.mem_append.mp hr' with hr' | hr'
      · obtain ⟨hold, hqueued⟩ := h.stack r' hr' hs hin
        exact ⟨List.mem_cons_of_mem _ hold, List.mem_append_left _ hqueued⟩
      · rw [List.mem_singleton.mp hr']
        exact ⟨List.mem_cons_self, List.mem_append_right _ (List.mem_singleton_self _)⟩
    plain := fun r' hr' hs hin => by
      rcases List.mem_append.mp hr' with hr' | hr'
      · exact h.plain r' hr' hs hin
      · rw [List.mem_singleton.mp hr', hstack] at hs
        cases hs }

theorem Opening.append {r : GcRoot} (h : Opening t fresh w roots ids)
    (hstack : r.stackFrame = true → ¬InHeap fresh.objectCount r.id)
    (hplain : r.stackFrame = false → InHeap fresh.objectCount r.id → w.run.IsClaimed r.id) :
    Opening t fresh w (roots ++ [r]) ids := by
  refine { h with stack := fun r' hr' hs hin => ?_, plain := fun r' hr' hs hin => ?_ }
  · rcases List.mem_append.mp hr' with hr' | hr'
    · exact h.stack r' hr' hs hin
    · rw [List.mem_singleton.mp hr'] at hs hin
      exact absurd hin (hstack hs)
  · rcases List.mem_append.mp hr' with hr' | hr'
    · exact h.plain r' hr' hs hin
    · rw [List.mem_singleton.mp hr'] at hs hin ⊢
      exact hplain hs hin

/-- A root of the dump is claimed, or queued if a stack frame holds it. -/
theorem Opening.addRoot {r : GcRoot} (h : Opening t fresh w roots ids) (hr : r ∈ t.graph.roots) :
    Opening t fresh (w.addRoot r) (roots ++ [r]) ids := by
  unfold Walk.addRoot
  by_cases hstack : r.stackFrame = true
  · rw [if_pos hstack]
    by_cases hvalid : w.run.isValid r.id = true
    · rw [if_pos hvalid]
      exact h.queueRoot hr hstack hvalid
    · rw [if_neg hvalid]
      refine h.append (fun _ hin => hvalid ((h.ledger.valid_iff _).mpr hin)) fun hplain => ?_
      rw [hstack] at hplain
      cases hplain
  · rw [if_neg hstack]
    have hplain : r.stackFrame = false := by
      rwa [Bool.not_eq_true] at hstack
    obtain ⟨hdone, hclaimed⟩ := h.claimRoot (.root hr hplain)
    exact hdone.append (fun hyes => absurd hyes hstack) fun _ => hclaimed

theorem Opening.addRoots {rs : List GcRoot} (h : Opening t fresh w roots ids)
    (hrs : ∀ r ∈ rs, r ∈ t.graph.roots) : Opening t fresh (rs.foldl Walk.addRoot w) (roots ++ rs) ids := by
  induction rs generalizing w roots with
  | nil => rwa [List.append_nil]
  | cons r rs ih =>
    have hdone := ih (h.addRoot (hrs r List.mem_cons_self)) fun r' hr' => hrs r' (List.mem_cons_of_mem r hr')
    rwa [List.append_assoc] at hdone

theorem Opening.claimRoots {more : List ObjectId} (h : Opening t fresh w roots ids)
    (hmore : ∀ id ∈ more, t.Seed .strongNonLocal id) :
    Opening t fresh (more.foldl Walk.claimRoot w) roots (ids ++ more) := by
  induction more generalizing w ids with
  | nil => rwa [List.append_nil]
  | cons id more ih =>
    obtain ⟨hnext, hclaimed⟩ := h.claimRoot (hmore id List.mem_cons_self)
    have hstep : Opening t fresh (w.claimRoot id) roots (ids ++ [id]) := by
      refine { hnext with ids := fun v hv hin => ?_ }
      rcases List.mem_append.mp hv with hv | hv
      · exact hnext.ids v hv hin
      · rw [List.mem_singleton.mp hv] at hin ⊢
        exact hclaimed hin
    have hdone := ih hstep fun v hv => hmore v (List.mem_cons_of_mem id hv)
    rwa [List.append_assoc] at hdone

end Walk

theorem Run.IsFresh.blank (h : fresh.IsFresh) :
    fresh.parents = .create (fresh.objectCount + 2) ∧ fresh.sizes = .create (fresh.objectCount + 2) ∧
      fresh.visited = .create (fresh.objectCount + 2) := by
  obtain ⟨config, count, tree?, space, h⟩ := h
  unfold Run.create at h
  split at h
  · cases h
  · cases h
    exact ⟨rfl, rfl, rfl⟩

theorem Run.IsFresh.not_isClaimed (h : fresh.IsFresh) (id : ObjectId) : ¬fresh.IsClaimed id := by
  rintro ⟨-, hne⟩
  rw [h.blank.1] at hne
  exact hne (Slots.get_create _ id)

namespace Walk
variable {w : Walk} {segment : Phase → List ObjectId} {held : List ObjectId} {id : ObjectId}

theorem opening_blank (hf : fresh.IsFresh) (nominated : List (ClassId × List ObjectId)) :
    Opening t fresh { run := fresh, nominated := nominated } [] [] := by
  obtain ⟨hparents, -, -⟩ := hf.blank
  have hnone := hf.not_isClaimed
  exact {
    same := .refl _
    phase := rfl
    blank := ⟨rfl, rfl, rfl, rfl, rfl⟩
    ledger.objectCount := rfl
    ledger.capacity := by
      rw [hparents]
      rfl
    ledger.nodup := List.nodup_nil
    ledger.claimed := fun id hid => absurd hid List.not_mem_nil
    ledger.covered := fun id hid => absurd hid (hnone id)
    justified := fun id hid => absurd hid (hnone id)
    queue := fun e he => absurd he List.not_mem_nil
    others := fun Q _ => by cases Q <;> rfl
    listed := fun id hid => absurd hid (hnone id)
    seeds := fun id hid => absurd hid List.not_mem_nil
    stack := fun r hr => absurd hr List.not_mem_nil
    plain := fun r hr => absurd hr List.not_mem_nil
    ids := fun id hid => absurd hid List.not_mem_nil }

section
variable {queues : PhaseQueues}
  (h : Opening t fresh w t.graph.roots (t.graph.classes.toList.flatMap ClassDefinition.held))
include h

theorem Opening.visits (hf : fresh.IsFresh) :
    Visits t fresh w.run w.visitedCount w.strong w.summary.strongVisited (fun _ => []) := by
  obtain ⟨-, hsizes, hvisited⟩ := hf.blank
  obtain ⟨hcount, hstrong, -, hsummary, -⟩ := h.blank
  obtain ⟨parents, roles, hrun⟩ := h.same
  rw [hcount, hstrong, hsummary, hrun]
  exact {
    heap := ⟨rfl, rfl, rfl⟩
    capacity_visited := by
      change fresh.visited.capacity = _
      rw [hvisited]
      rfl
    capacity_sizes := by
      change fresh.sizes.capacity = _
      rw [hsizes]
      rfl
    order := rfl
    sizes := fun id => by
      change fresh.sizes.get id = 0
      rw [hsizes]
      exact Slots.get_create _ id
    strong := rfl
    strongVisited := rfl }

/-- A seed of some phase is claimed or waits. -/
theorem Opening.promised
    (hsentinel : queues.pending .syntheticTree = if t.sentinel = 0 then [] else [.revisit t.sentinel])
    (hlocal : queues.pending .strongLocal = w.queues.pending .strongLocal) {Q : Phase}
    (hin : InHeap fresh.objectCount id) (hs : t.Seed Q id) : Promised w.run .strongNonLocal queues Q id := by
  cases hs with
  | root hr hs => exact Or.inl (h.plain _ hr hs hin)
  | held hc hid => exact Or.inl (h.ids _ (List.mem_flatMap.mpr ⟨_, hc, hid⟩) hin)
  | @stack r hr hstack hP =>
    have hqueued := (h.stack r hr hstack hin).2
    rw [← hlocal] at hqueued
    exact Or.inr ⟨.strongLocal, by decide, hP, .root r.id, hqueued, rfl⟩
  | sentinel hP =>
    rw [if_neg (Nat.pos_iff_ne_zero.mp hin.1)] at hsentinel
    refine Or.inr ⟨.syntheticTree, by decide, hP, .revisit t.sentinel, ?_, rfl⟩
    rw [hsentinel]
    exact List.mem_singleton_self _

/-- Stack roots wait for their phase and the sentinel for its own; nothing else waits. -/
theorem Opening.queued
    (hsentinel : queues.pending .syntheticTree = if t.sentinel = 0 then [] else [.revisit t.sentinel])
    (hothers : ∀ Q, Q ≠ .syntheticTree → queues.pending Q = w.queues.pending Q) :
    Queued t fresh.objectCount w.run .strongNonLocal queues [] [] := by
  have hlocal : queues.pending .strongLocal = w.queues.pending .strongLocal := hothers _ (by decide)
  have hnone : ∀ Q, Q ≠ .syntheticTree → Q ≠ .strongLocal → queues.pending Q = [] :=
    fun Q hs hl => (hothers Q hs).trans (h.others Q hl)
  exact {
    sentinel := fun _ => hsentinel
    cleanup := hnone _ (by decide) (by decide)
    claims := fun Q _ hs _ e he => by
      by_cases hl : Q = .strongLocal
      · subst hl
        rw [hlocal] at he
        obtain ⟨r, -, -, rfl⟩ := h.queue e he
        trivial
      · rw [hnone Q hs hl] at he
        exact absurd he List.not_mem_nil
    sound := fun Q _ e he hin => by
      by_cases hs : Q = .syntheticTree
      · subst hs
        rw [hsentinel] at he
        split at he
        · exact absurd he List.not_mem_nil
        · rw [List.mem_singleton.mp he] at hin ⊢
          exact ⟨hin, Or.inl (.sentinel (Phase.le_refl _))⟩
      by_cases hl : Q = .strongLocal
      · subst hl
        rw [hlocal] at he
        obtain ⟨r, hr, hstack, rfl⟩ := h.queue e he
        exact ⟨hin, Or.inl (.stack hr hstack (Phase.le_refl _))⟩
      · rw [hnone Q hs hl] at he
        exact absurd he List.not_mem_nil
    strongOnly := fun _ Q hQ => by
      refine hnone Q ?_ ?_ <;> rintro rfl <;> exact absurd hQ (by decide)
    seeds := fun Q _ id hin hs => h.promised hsentinel hlocal hin hs
    edges := fun _ _ u hu => absurd hu List.not_mem_nil }

/-- All seeds but the sentinel are in the list of roots. -/
theorem Opening.rooted : Rooted t fresh.objectCount .strongNonLocal w.roots := by
  refine ⟨fun v hv => ?_, fun v hin hs => ?_, fun hle => absurd hle (by decide)⟩
  · exact ⟨(h.seeds v hv).1, (h.seeds v hv).2.mono (by decide)⟩
  · cases hs with
    | root hr hs => exact h.listed _ (h.plain _ hr hs hin)
    | held hc hid => exact h.listed _ (h.ids _ (List.mem_flatMap.mpr ⟨_, hc, hid⟩) hin)
    | stack hr hs _ => exact (h.stack _ hr hs hin).1
    | sentinel hP => exact absurd hP (by decide)

/-- The state once all seeds are taken in and the sentinel waits as well. -/
theorem Opening.inv (hf : fresh.IsFresh)
    (hsentinel : queues.pending .syntheticTree = if t.sentinel = 0 then [] else [.revisit t.sentinel])
    (hothers : ∀ Q, Q ≠ .syntheticTree → queues.pending Q = w.queues.pending Q) :
    Inv t fresh { w with frontier := w.frontier.reverse, queues := queues } (fun _ => [])
      w.frontier.reverse [] := by
  obtain ⟨-, -, -, -, hcrash⟩ := h.blank
  have hledger := h.ledger.perm (List.reverse_perm _).symm
  have hqueued := h.queued hsentinel hothers
  have hrooted := h.rooted
  have hjustified := h.justified
  rw [← h.phase] at hledger hqueued hrooted hjustified
  -- no object was visited, and there is no phase before the first one
  refine ⟨hcrash, h.visits hf, hledger, hqueued, hrooted, hjustified,
    fun id hid => absurd hid List.not_mem_nil, fun _ _ => rfl, fun Q hQ => ?_,
    fun id hid => absurd hid List.not_mem_nil, fun _ hlt => ?_⟩
  · change Q < w.phase at hQ
    rw [h.phase] at hQ
    exact absurd hQ (Nat.not_lt_zero _)
  · change .syntheticTree < w.phase at hlt
    rw [h.phase] at hlt
    exact absurd hlt (by decide)

end

/-- A walk starts with its seeds taken in and with the sentinel waiting for its phase. -/
theorem exists_opening (t : Terrain) (hf : fresh.IsFresh) (nominated : List ClassId) : ∃ w,
    Opening t fresh w t.graph.roots (t.graph.classes.toList.flatMap ClassDefinition.held) ∧
      start t fresh nominated = { w with
        frontier := w.frontier.reverse
        queues := if t.sentinel = 0 then w.queues
          else w.queues.defer .syntheticTree (.revisit t.sentinel) } := by
  have hroots : Opening t fresh (t.graph.roots.foldl Walk.addRoot
      { run := fresh, nominated := nominated.map fun id => (id, []) }) ([] ++ t.graph.roots) [] :=
    (opening_blank hf _).addRoots fun r hr => hr
  have hall := hroots.claimRoots (fun id hid => by
    obtain ⟨c, hc, hid⟩ := List.mem_flatMap.mp hid
    exact Terrain.Seed.held hc hid :
      ∀ id ∈ t.graph.classes.toList.flatMap ClassDefinition.held, t.Seed .strongNonLocal id)
  refine ⟨_, hall, ?_⟩
  unfold start
  dsimp only
  split <;> rfl

theorem inv_start (hf : fresh.IsFresh) (nominated : List ClassId) :
    Inv t fresh (start t fresh nominated) (fun _ => []) (start t fresh nominated).frontier [] := by
  obtain ⟨w, hw, heq⟩ := exists_opening t hf nominated
  have hsentinel := hw.others .syntheticTree (by decide)
  rw [heq]
  by_cases h0 : t.sentinel = 0
  · rw [if_pos h0]
    refine hw.inv hf ?_ fun _ _ => rfl
    rw [if_pos h0, hsentinel]
  · rw [if_neg h0]
    refine hw.inv hf ?_ fun Q hQ => ?_
    · rw [PhaseQueues.pending_defer, if_pos rfl, if_neg h0, hsentinel]
      rfl
    · rw [PhaseQueues.pending_defer, if_neg hQ]

theorem isDone_iff : w.isDone = true ↔ w.frontier = [] ∧ w.phase = .finished := by
  unfold isDone
  rw [Bool.and_eq_true, List.isEmpty_iff, decide_eq_true_iff]

/-- A walk that has nothing open and is not done begins its next phase. -/
theorem Inv.turn_of_isEmpty (h : Inv t fresh w segment w.frontier held) (hdone : ¬w.isDone = true)
    (hempty : w.frontier.isEmpty = true) : w.frontier = [] ∧ w.phase ≠ .finished ∧ w.turn t = w.advance t ∧
      ∃ held', Inv t fresh (w.advance t) segment (w.advance t).frontier held' := by
  have hnil := List.isEmpty_iff.mp hempty
  have hne : w.phase ≠ .finished := fun he => hdone (isDone_iff.mpr ⟨hnil, he⟩)
  rw [hnil] at h
  exact ⟨hnil, hne, if_pos hempty, h.advance hne⟩

/-- However a walk ends, its state is sound; nothing is open if it comes to its end. -/
theorem Inv.proceed {P : Walk → Prop} (hk : Kept t fresh P) (slices : List Slice) (fuel : Nat) (j : Journal)
    (h : Inv t fresh w segment w.frontier held) (hp : P w) :
    ∃ segment' held',
      Inv t fresh (proceed t slices fuel w j).1 segment' (proceed t slices fuel w j).1.frontier held' ∧
      P (proceed t slices fuel w j).1 ∧
      ((proceed t slices fuel w j).2.2 = none →
        (proceed t slices fuel w j).1.frontier = [] ∧ (proceed t slices fuel w j).1.phase = .finished) := by
  -- turn by turn: a phase begins where nothing is open, and there is a wave otherwise
  induction fuel generalizing w segment held j with
  | zero => exact ⟨segment, held, h, hp, fun hnone => nomatch hnone⟩
  | succ fuel ih =>
    rw [Walk.proceed]
    by_cases hdone : w.isDone = true
    · rw [if_pos hdone]
      exact ⟨segment, held, h, hp, fun _ => isDone_iff.mp hdone⟩
    rw [if_neg hdone]
    by_cases hempty : w.frontier.isEmpty = true
    · obtain ⟨hnil, hne, hturn, held', hnext⟩ := h.turn_of_isEmpty hdone hempty
      rw [if_pos hempty, hturn]
      rw [hnil] at h
      exact ih j hnext (hk.advance h hne hp)
    · obtain ⟨segment', held', hnext, hkept⟩ := h.wave hk hp
      have hturn : w.turn t = w.wave t := if_neg hempty
      rw [if_neg hempty, hturn]
      dsimp only
      rw [hnext.crash]
      dsimp only
      split
      · exact ⟨segment', held', hnext, hkept, fun hnone => nomatch hnone⟩
      · exact ih _ hnext hkept

end Walk

/-- The walk that a traversal starts from. -/
def Run.opening (fresh : Run) (graph : HeapGraph) : Walk :=
  .start (.of graph fresh) fresh (nominations graph fresh.config.perClass.classNames).1

/-- What a traversal has said when its walk starts. -/
def Run.prologue (fresh : Run) (graph : HeapGraph) (journal : Journal) : Journal :=
  (((nominations graph fresh.config.perClass.classNames).2.foldl (fun j name => j.log .warn
    ("nominated class \x60" ++ name ++ "\x60 does not exist in this heap")) journal).stage
      "Collect all object roots").stage "Traversing instance graph"

/-- The walk of a traversal where it stops, with what was said until then and what stopped it. -/
def Run.walked (fresh : Run) (graph : HeapGraph) (slices : List Slice) (journal : Journal) :
    Walk × Journal × Option Failure :=
  (fresh.opening graph).proceed (.of graph fresh) slices (Walk.turnLimit fresh) (fresh.prologue graph journal)

theorem Run.traverse_eq (fresh : Run) (graph : HeapGraph) (slices : List Slice) (journal : Journal) :
    fresh.traverse graph slices journal =
      let (w, j, failure?) := fresh.walked graph slices journal
      match failure? with
      | some failure => ⟨w.run, j, .error failure⟩
      | none =>
        if !w.queues.isEmpty then ⟨w.run, j, .error (.crash .leftovers)⟩
        else ⟨w.run, j.log .info w.logLine, (w.traversal graph.classes).mapError .crash⟩ := by
  unfold Run.traverse Run.walked Run.opening Run.prologue
  rfl

/-- The walk of a traversal that came to its end was done. -/
theorem Run.walked_of_traversed {graph : HeapGraph} {run : Run} {traversal : Traversal}
    (ht : Traversed graph fresh run traversal) :
    ∃ slices journal, (fresh.walked graph slices journal).2.2 = none ∧
      (fresh.walked graph slices journal).1.run = run ∧
      (fresh.walked graph slices journal).1.traversal graph.classes = .ok traversal := by
  obtain ⟨slices, journal, journal', ht⟩ := ht
  rw [Run.traverse_eq] at ht
  dsimp only at ht
  split at ht
  · cases ht
  · next hnone =>
    split at ht
    · cases ht
    · injection ht with hrun _ hresult
      exact ⟨slices, journal, hnone, hrun, ok_of_mapError hresult⟩

section
variable {graph : HeapGraph} {P : Walk → Prop} (hk : Walk.Kept (.of graph fresh) fresh P)
  (hp : P (fresh.opening graph)) (hf : fresh.IsFresh)
include hk hp hf

/-- The walk behind a traversal, however it ended, with whatever its steps keep. -/
theorem exists_inv_walked (slices : List Slice) (journal : Journal) :
    ∃ segment held, Walk.Inv (.of graph fresh) fresh (fresh.walked graph slices journal).1 segment
        (fresh.walked graph slices journal).1.frontier held ∧
      P (fresh.walked graph slices journal).1 ∧
      ((fresh.walked graph slices journal).2.2 = none →
        (fresh.walked graph slices journal).1.frontier = [] ∧
          (fresh.walked graph slices journal).1.phase = .finished) :=
  (Walk.inv_start hf _).proceed hk slices (Walk.turnLimit fresh) (fresh.prologue graph journal) hp

/-- What stands behind a traversal that came to its end: a walk with one segment a phase. -/
theorem exists_walk_keeping {run : Run} {traversal : Traversal} (ht : Traversed graph fresh run traversal) :
    ∃ last segment held, Walk.Inv (.of graph fresh) fresh last segment [] held ∧ last.phase = .finished ∧
      P last ∧ last.run = run ∧ last.traversal graph.classes = .ok traversal := by
  obtain ⟨slices, journal, hnone, hrun, hresult⟩ := Run.walked_of_traversed ht
  obtain ⟨segment, held, hinv, hkept, hend⟩ := exists_inv_walked hk hp hf slices journal
  obtain ⟨hnil, hphase⟩ := hend hnone
  rw [hnil] at hinv
  exact ⟨_, segment, held, hinv, hphase, hkept, hrun, hresult⟩

end

theorem Run.run_traverse (fresh : Run) (graph : HeapGraph) (slices : List Slice) (journal : Journal) :
    (fresh.traverse graph slices journal).run = (fresh.walked graph slices journal).1.run := by
  rw [Run.traverse_eq]
  dsimp only
  split
  · rfl
  · split <;> rfl

theorem exists_walk {graph : HeapGraph} {run : Run} {traversal : Traversal} (hf : fresh.IsFresh)
    (ht : Traversed graph fresh run traversal) :
    ∃ last segment held, Walk.Inv (.of graph fresh) fresh last segment [] held ∧ last.phase = .finished ∧
      last.run = run ∧ last.traversal graph.classes = .ok traversal := by
  obtain ⟨last, segment, held, hinv, hphase, -, hrest⟩ := exists_walk_keeping Walk.kept_true trivial hf ht
  exact ⟨last, segment, held, hinv, hphase, hrest⟩

end HeapRetention
