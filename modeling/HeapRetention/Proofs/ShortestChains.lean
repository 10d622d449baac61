import HeapRetention.Proofs.DominatorsMet
import HeapRetention.Proofs.SpanningForest
import HeapRetention.Proofs.WalkEnds
import Mathlib.Order.Bounds.Basic

/-! Parents in the first phase. What a wave claims is one step farther from the seeds than the wave itself,
and an object that no wave has claimed yet is no closer than that. So parents lead along shortest paths, and
along the order of visits the paths never get shorter. -/
namespace HeapRetention

/-- Parents lead from an object to one that is its own parent, in so many steps. -/
inductive Run.StepsUp (run : Run) : ObjectId → Nat → Prop
  | top {id : ObjectId} (h : run.parent? id = some id) : StepsUp run id 0
  | up {id p : ObjectId} {n : Nat} (h : run.parent? id = some p) (hne : p ≠ id) (hp : StepsUp run p n) :
      StepsUp run id (n + 1)

namespace Terrain

/-- A path of so many edges from a seed of a phase to an object. It passes only what the phase lets in. -/
inductive PathTo (t : Terrain) (count : Nat) (P : Phase) : ObjectId → Nat → Prop
  | seed {id : ObjectId} (h : Seed t P id) (hv : InHeap count id) (ha : Admits t P id) :
      PathTo t count P id 0
  | step {u v : ObjectId} {n : Nat} (hu : PathTo t count P u n) (h : OutEdge t P u v)
      (hv : InHeap count v) (ha : Admits t P v) : PathTo t count P v (n + 1)

/-- The end of a path of so many edges, whether the phase lets it in or not. -/
structure EndsPath (t : Terrain) (count : Nat) (P : Phase) (id : ObjectId) (n : Nat) : Prop where
  valid : InHeap count id
  source : (n = 0 ∧ Seed t P id) ∨ ∃ u m, n = m + 1 ∧ PathTo t count P u m ∧ OutEdge t P u id

variable {t : Terrain} {count n : Nat} {P : Phase} {id : ObjectId}

theorem PathTo.reach (h : PathTo t count P id n) : Reach t count P id := by
  induction h with
  | seed h hv ha => exact .seed h hv ha
  | step _ h hv ha ih => exact .step ih h hv ha

theorem EndsPath.pathTo (h : EndsPath t count P id n) (ha : Admits t P id) : PathTo t count P id n := by
  rcases h.source with ⟨rfl, hs⟩ | ⟨u, m, rfl, hu, he⟩
  · exact .seed hs h.valid ha
  · exact .step hu he h.valid ha

end Terrain

/-- Whoever has a parent in the first run has the same one in the second. -/
def Run.Keeps (r r' : Run) : Prop :=
  ∀ x p, r.parent? x = some p → r'.parent? x = some p

section
variable {r r' r'' : Run} {x id parent m n : Nat}

theorem Run.Keeps.refl (r : Run) : r.Keeps r :=
  fun _ _ h => h

theorem Run.Keeps.trans (h : r.Keeps r') (h' : r'.Keeps r'') : r.Keeps r'' :=
  fun x p hx => h' x p (h x p hx)

theorem Run.IsClaimed.exists_parent? (h : r.IsClaimed x) : ∃ p, r.parent? x = some p :=
  ⟨_, Run.parent?_eq_some_iff.mpr ⟨h, rfl⟩⟩

theorem Run.Keeps.isClaimed (h : r.Keeps r') (hc : r.IsClaimed x) : r'.IsClaimed x := by
  obtain ⟨p, hp⟩ := hc.exists_parent?
  exact (Run.parent?_eq_some_iff.mp (h x p hp)).1

theorem Run.keeps_claim (hu : r.isUnclaimed id = true) : r.Keeps (r.claim id parent) := by
  intro x p hx
  obtain ⟨hclaimed, rfl⟩ := Run.parent?_eq_some_iff.mp hx
  exact Run.parent?_eq_some_iff.mpr ⟨hclaimed.claim hu, Run.parents_claim_of_ne (hclaimed.ne hu)⟩

/-- Parents on the way up stay what they are. -/
theorem Run.StepsUp.mono (h : r.StepsUp x n) (hk : r.Keeps r') : r'.StepsUp x n := by
  induction h with
  | top h => exact .top (hk _ _ h)
  | up h hne _ ih => exact .up (hk _ _ h) hne ih

theorem Run.StepsUp.unique (hm : r.StepsUp x m) (hn : r.StepsUp x n) : m = n := by
  induction hm generalizing n with
  | top h =>
    cases hn with
    | top _ => rfl
    | up h' hne _ => exact absurd (Option.some.inj (h'.symm.trans h)) hne
  | up h hne _ ih =>
    cases hn with
    | top h' => exact absurd (Option.some.inj (h.symm.trans h')) hne
    | up h' _ hp =>
      cases h.symm.trans h'
      rw [ih hp]

end

/-- What an object has claimed in a run so far: nothing that had a parent. -/
structure Claims.Adopts (r : Run) (holder : ObjectId) (c : Claims) : Prop where
  keeps : r.Keeps c.run
  parent : ∀ x p, c.run.parent? x = some p → r.parent? x = some p ∨ (p = holder ∧ ¬r.IsClaimed x)
  claimed : ∀ x ∈ c.claimed, ¬r.IsClaimed x

section
variable {r : Run} {holder target : ObjectId} {c : Claims} {isArray recordRoles : Bool} {fieldCount : Nat}

theorem Claims.Adopts.claim {edges : Nat} (h : Adopts r holder c) (hu : c.run.isUnclaimed target = true) :
    Adopts r holder { run := c.run.claim target holder, claimed := target :: c.claimed, edges } := by
  have hnew : ¬r.IsClaimed target := by
    intro hold
    exact ((c.run.isUnclaimed_iff target).mp hu).2 (h.keeps.isClaimed hold)
  refine ⟨h.keeps.trans (Run.keeps_claim hu), fun x p hx => ?_, fun x hx => ?_⟩
  · obtain ⟨hclaimed, rfl⟩ := Run.parent?_eq_some_iff.mp hx
    by_cases he : target = x
    · subst he
      exact Or.inr ⟨Run.parents_claim_self hu hclaimed, hnew⟩
    · refine h.parent x _ (Run.parent?_eq_some_iff.mpr ⟨⟨hclaimed.1, ?_⟩, ?_⟩)
      · exact (Run.parents_claim_of_ne he) ▸ hclaimed.2
      · exact (Run.parents_claim_of_ne he).symm
  · rcases List.mem_cons.mp hx with rfl | hx
    · exact hnew
    · exact h.claimed x hx

theorem Claims.Adopts.follow (h : Adopts r holder c) (target : ObjectId) (index : Nat) :
    Adopts r holder (c.follow holder isArray recordRoles fieldCount target index) := by
  unfold Claims.follow
  split
  · exact h
  split
  · next hu =>
    have hclaim : Adopts r holder ⟨c.run.claim target holder, target :: c.claimed, c.edges + 1⟩ := h.claim hu
    cases recordRoles with
    | false => exact hclaim
    | true => exact ⟨hclaim.keeps, hclaim.parent, hclaim.claimed⟩
  · exact ⟨h.keeps, h.parent, h.claimed⟩

theorem Claims.Adopts.followAll (targets : List ObjectId) (index : Nat) (h : Adopts r holder c) :
    Adopts r holder (Claims.followAll holder isArray recordRoles fieldCount c targets index) := by
  induction targets generalizing c index with
  | nil => exact h
  | cons target targets ih => exact ih (index + 1) (h.follow target index)

theorem Walk.adopts_claims (t : Terrain) (w : Walk) (id : ObjectId) :
    Claims.Adopts w.run id (w.claims t id) := by
  have hnone : Claims.Adopts w.run id { run := w.run } :=
    ⟨.refl _, fun _ _ hx => Or.inl hx, fun _ hx => absurd hx List.not_mem_nil⟩
  exact hnone.followAll _ 0

end

/-- The objects of the first phase by their steps to the top while a wave of those with `d` steps is under
way: `seen` are visited, `rest` is what the wave has left, and `next` is the wave after it. -/
structure Levels (t : Terrain) (count : Nat) (run : Run) (seen rest next : List ObjectId) (d : Nat) :
    Prop where
  /-- Steps come from paths. -/
  sound : ∀ x, run.IsClaimed x → ∃ n, n ≤ d + 1 ∧ run.StepsUp x n ∧ t.EndsPath count .strongNonLocal x n
  seeds : ∀ x, InHeap count x → t.Seed .strongNonLocal x → run.StepsUp x 0
  edges : ∀ u ∈ seen, ∃ n, run.StepsUp u n ∧ ∀ v, InHeap count v → t.OutEdge .strongNonLocal u v →
    ∃ m, m ≤ n + 1 ∧ run.StepsUp v m
  sorted : seen.Pairwise fun x y => ∃ m n, run.StepsUp x m ∧ run.StepsUp y n ∧ m ≤ n
  low : ∀ x ∈ seen, ∃ n, n ≤ d ∧ run.StepsUp x n
  rest : ∀ x ∈ rest, run.StepsUp x d
  next : ∀ x ∈ next, run.StepsUp x (d + 1)

namespace Levels
variable {t : Terrain} {count d : Nat} {run run' : Run} {seen rest next : List ObjectId} {id : ObjectId}

/-- The objects that come to be claimed have one step more than the visited one that claims them. -/
theorem visit (h : Levels t count run seen (id :: rest) next d) (ha : t.Admits .strongNonLocal id)
    (hid : run.IsClaimed id) (hkeeps : run.Keeps run')
    (hparent : ∀ x p, run'.parent? x = some p → run.parent? x = some p ∨ (p = id ∧ ¬run.IsClaimed x))
    (hiff : ∀ v, run'.IsClaimed v ↔
      run.IsClaimed v ∨ (t.OutEdge .strongNonLocal id v ∧ InHeap count v))
    {claimed : List ObjectId} (hclaimed : ∀ x ∈ claimed, run'.IsClaimed x ∧ ¬run.IsClaimed x) :
    Levels t count run' (seen ++ [id]) rest (claimed ++ next) d := by
  have hsteps : run.StepsUp id d := h.rest id List.mem_cons_self
  have hnew : ∀ x, run'.IsClaimed x → ¬run.IsClaimed x → run'.StepsUp x (d + 1) := by
    intro x hx hnot
    obtain ⟨p, hp⟩ := hx.exists_parent?
    rcases hparent x p hp with hold | ⟨rfl, -⟩
    · exact absurd (Run.parent?_eq_some_iff.mp hold).1 hnot
    · have hne : p ≠ x := fun he => hnot (he ▸ hid)
      exact .up hp hne (hsteps.mono hkeeps)
  have hpath : t.PathTo count .strongNonLocal id d := by
    obtain ⟨n, -, hn, hends⟩ := h.sound id hid
    rw [hn.unique hsteps] at hends
    exact hends.pathTo ha
  exact {
    sound := fun x hx => by
      -- what is claimed now is one step below `id`
      by_cases hold : run.IsClaimed x
      · obtain ⟨n, hle, hn, hends⟩ := h.sound x hold
        exact ⟨n, hle, hn.mono hkeeps, hends⟩
      · obtain ⟨hedge, hv⟩ := ((hiff x).mp hx).resolve_left hold
        exact ⟨d + 1, Nat.le_refl _, hnew x hx hold, hv, Or.inr ⟨id, d, rfl, hpath, hedge⟩⟩
    seeds := fun x hv hs => (h.seeds x hv hs).mono hkeeps
    edges := fun u hu => by
      rcases List.mem_append.mp hu with hu | hu
      · obtain ⟨n, hn, hall⟩ := h.edges u hu
        refine ⟨n, hn.mono hkeeps, fun v hv he => ?_⟩
        obtain ⟨m, hle, hm⟩ := hall v hv he
        exact ⟨m, hle, hm.mono hkeeps⟩
      · rw [List.mem_singleton.mp hu]
        refine ⟨d, hsteps.mono hkeeps, fun v hv he => ?_⟩
        by_cases hold : run.IsClaimed v
        · obtain ⟨m, hle, hm, -⟩ := h.sound v hold
          exact ⟨m, hle, hm.mono hkeeps⟩
        · exact ⟨d + 1, Nat.le_refl _, hnew v ((hiff v).mpr (Or.inr ⟨he, hv⟩)) hold⟩
    sorted := by
      refine List.pairwise_append.mpr ⟨?_, List.pairwise_singleton _ _, fun x hx y hy => ?_⟩
      · refine h.sorted.imp ?_
        rintro x y ⟨m, n, hm, hn, hle⟩
        exact ⟨m, n, hm.mono hkeeps, hn.mono hkeeps, hle⟩
      · obtain ⟨m, hle, hm⟩ := h.low x hx
        rw [List.mem_singleton.mp hy]
        exact ⟨m, d, hm.mono hkeeps, hsteps.mono hkeeps, hle⟩
    low := fun x hx => by
      rcases List.mem_append.mp hx with hx | hx
      · obtain ⟨n, hle, hn⟩ := h.low x hx
        exact ⟨n, hle, hn.mono hkeeps⟩
      · rw [List.mem_singleton.mp hx]
        exact ⟨d, Nat.le_refl d, hsteps.mono hkeeps⟩
    rest := fun x hx => (h.rest x (List.mem_cons_of_mem id hx)).mono hkeeps
    next := fun x hx => by
      rcases List.mem_append.mp hx with hx | hx
      · exact hnew x (hclaimed x hx).1 (hclaimed x hx).2
      · exact (h.next x hx).mono hkeeps }

theorem passOver (h : Levels t count run seen (id :: rest) next d) : Levels t count run seen rest next d :=
  { h with rest := fun x hx => h.rest x (List.mem_cons_of_mem id hx) }

/-- The wave is over and the next one begins. -/
theorem turn (h : Levels t count run seen [] next d) : Levels t count run seen next.reverse [] (d + 1) where
  sound x hx := by
    obtain ⟨n, hle, hn⟩ := h.sound x hx
    exact ⟨n, Nat.le_succ_of_le hle, hn⟩
  seeds := h.seeds
  edges := h.edges
  sorted := h.sorted
  low x hx := by
    obtain ⟨n, hle, hn⟩ := h.low x hx
    exact ⟨n, Nat.le_succ_of_le hle, hn⟩
  rest x hx := h.next x (List.mem_reverse.mp hx)
  next x hx := absurd hx List.not_mem_nil

/-- No path to an object is shorter than its steps to the top, and one is as long. -/
theorem isLeast {n : Nat} (h : Levels t count run seen [] [] d)
    (hmem : ∀ x, x ∈ seen ↔ t.Reach count .strongNonLocal x) (hid : id ∈ seen) (hclaimed : run.IsClaimed id)
    (hn : run.StepsUp id n) : IsLeast {m | t.PathTo count .strongNonLocal id m} n := by
  have hbound : ∀ v m, t.PathTo count .strongNonLocal v m → ∃ k, k ≤ m ∧ run.StepsUp v k := by
    intro v m hpath
    -- an edge leads at most one step farther down, so no path is shorter than the steps of its end
    induction hpath with
    | seed hs hv _ => exact ⟨0, Nat.le_refl 0, h.seeds _ hv hs⟩
    | @step u v m hu he hv _ ih =>
      obtain ⟨k, hle, hk⟩ := ih
      obtain ⟨k', hk', hall⟩ := h.edges u ((hmem u).mpr hu.reach)
      obtain rfl := hk.unique hk'
      obtain ⟨l, hl, hsteps⟩ := hall v hv he
      exact ⟨l, Nat.le_trans hl (Nat.succ_le_succ hle), hsteps⟩
  constructor
  · obtain ⟨m, -, hm, hends⟩ := h.sound id hclaimed
    rw [hm.unique hn] at hends
    exact hends.pathTo ((hmem id).mp hid).admits
  · intro m hpath
    obtain ⟨k, hle, hk⟩ := hbound id m hpath
    rw [hn.unique hk]
    exact hle

end Levels

namespace Walk
variable {t : Terrain} {fresh : Run} {w : Walk} {segment : Phase → List ObjectId}
  {next rest held : List ObjectId} {id : ObjectId} {d : Nat}

theorem Inv.levels_visit (h : Inv t fresh w segment (next ++ id :: rest) held)
    (hphase : w.phase = .strongNonLocal) (hpass : ¬t.passesOver w.phase id = true)
    (hl : Levels t fresh.objectCount w.run (Phase.gather segment) (id :: rest) next d) :
    Levels t fresh.objectCount (w.visit t next id).1.run (Phase.gather (Phase.extend segment w.phase id))
      rest (w.visit t next id).2 d := by
  have hopen : id ∈ next ++ id :: rest := List.mem_append_right next List.mem_cons_self
  have hid := h.claimed_of_open hopen
  have honly := h.phase_le_of_strongOnly hopen
  have hadmit := h.admits_of_open hopen hpass
  obtain ⟨hledger, hiff, -⟩ := claims_ledger (t := t) h.ledger (h.ne_zero_of_open hopen)
  have hadopts := adopts_claims t w id
  obtain ⟨q, nominated, summary, heq, -⟩ := visit_eq t w next id
  have hclaims : ∀ v, (w.claims t id).run.IsClaimed v ↔
      w.run.IsClaimed v ∨ (t.OutEdge w.phase id v ∧ InHeap fresh.objectCount v) := by
    intro v
    refine (hiff v).trans (or_congr_right (and_congr_left fun hv => ?_))
    exact Terrain.mem_followed_iff ((h.ledger.valid_iff v).mpr hv) (Nat.pos_iff_ne_zero.mp hv.1) honly
  have hclaimed : ∀ x ∈ (w.claims t id).claimed, (w.claims t id).run.IsClaimed x ∧ ¬w.run.IsClaimed x := by
    intro x hx
    refine ⟨hledger.claimed x ?_, hadopts.claimed x hx⟩
    exact List.mem_append_right _ (List.mem_append_left _ (List.mem_append_left _ hx))
  rw [Phase.gather_extend h.later, heq]
  rw [hphase] at hadmit hclaims
  -- recording a visit changes no parents
  refine hl.visit hadmit hid ?_ ?_ ?_ ?_
  · exact hadopts.keeps
  · exact hadopts.parent
  · exact hclaims
  · exact hclaimed

theorem run_passOver (t : Terrain) (w : Walk) (id : ObjectId) : (w.passOver t id).run = w.run := by
  unfold Walk.passOver
  split
  · rfl
  · split <;> rfl

/-- The first phase goes through a wave. -/
theorem Inv.levels_visitAll (h : Inv t fresh w segment (next ++ rest) held)
    (hphase : w.phase = .strongNonLocal)
    (hl : Levels t fresh.objectCount w.run (Phase.gather segment) rest next d) :
    ∃ segment' held', Inv t fresh (Walk.visitAll t w next rest).1 segment' (Walk.visitAll t w next rest).2 held' ∧
      Levels t fresh.objectCount (Walk.visitAll t w next rest).1.run (Phase.gather segment') []
        (Walk.visitAll t w next rest).2 d := by
  induction rest generalizing w next segment held with
  | nil =>
    rw [List.append_nil] at h
    exact ⟨segment, held, h, hl⟩
  | cons id rest ih =>
    rw [Walk.visitAll]
    by_cases hpass : t.passesOver w.phase id = true
    · rw [if_pos hpass]
      obtain ⟨held', hover⟩ := h.passOver hpass
      refine ih hover ((passOver_progress t w id).1.trans hphase) ?_
      rw [run_passOver]
      exact hl.passOver
    · rw [if_neg hpass, if_neg h.not_capacity_le]
      exact ih (h.visit hpass) ((visit_progress t w next id).1.trans hphase)
        (h.levels_visit hphase hpass hl)

/-- What a wave claims is one step farther than the wave. -/
theorem Inv.levels_wave (h : Inv t fresh w segment w.frontier held) (hphase : w.phase = .strongNonLocal)
    (hl : Levels t fresh.objectCount w.run (Phase.gather segment) w.frontier [] d) :
    ∃ segment' held', Inv t fresh (w.wave t) segment' (w.wave t).frontier held' ∧
      Levels t fresh.objectCount (w.wave t).run (Phase.gather segment') (w.wave t).frontier [] (d + 1) := by
  have hstart : Inv t fresh { w with frontier := [] } segment ([] ++ w.frontier) held := h.withFrontier []
  obtain ⟨segment', held', hdone, hlevels⟩ := hstart.levels_visitAll hphase hl
  exact ⟨segment', held', hdone.reverse.withFrontier _, hlevels.turn⟩

/-- A walk that comes to its end has been at the end of its first phase, with nothing left to visit. -/
theorem Inv.exists_levels (slices : List Slice) (fuel : Nat) (j : Journal)
    (h : Inv t fresh w segment w.frontier held) (hphase : w.phase = .strongNonLocal)
    (hl : Levels t fresh.objectCount w.run (Phase.gather segment) w.frontier [] d)
    (hend : (Walk.proceed t slices fuel w j).2.2 = none) :
    ∃ first segment' held' d' fuel' j', Inv t fresh first segment' first.frontier held' ∧
      first.frontier = [] ∧ first.phase = .strongNonLocal ∧
      Levels t fresh.objectCount first.run (Phase.gather segment') [] [] d' ∧
      Walk.proceed t slices fuel w j = Walk.proceed t slices fuel' first j' := by
  induction fuel generalizing w segment held j d with
  | zero => cases hend
  | succ fuel ih =>
    by_cases hempty : w.frontier = []
    · rw [hempty] at hl
      exact ⟨w, segment, held, d, fuel + 1, j, h, hempty, hphase, hl, rfl⟩
    have hdone : ¬w.isDone = true := fun hd => hempty (isDone_iff.mp hd).1
    have hopen : ¬w.frontier.isEmpty = true := fun hnil => hempty (List.isEmpty_iff.mp hnil)
    -- the first phase ends where its frontier is empty for the first time; until then every turn is a wave
    have hturn : w.turn t = w.wave t := if_neg hopen
    obtain ⟨segment', held', hnext, hlevels⟩ := h.levels_wave hphase hl
    have hphase' : (w.wave t).phase = .strongNonLocal :=
      (visitAll_progress t { w with frontier := [] } [] w.frontier).1.trans hphase
    rw [Walk.proceed, if_neg hdone, if_neg hopen, hturn] at hend ⊢
    dsimp only at hend ⊢
    rw [hnext.crash] at hend ⊢
    dsimp only at hend ⊢
    split at hend
    · cases hend
    · next hgo =>
      rw [if_neg hgo]
      exact ih _ hnext hphase' hlevels hend

/-- What a later moment of a walk has kept of an earlier one. -/
structure Extends (first w : Walk) : Prop where
  keeps : first.run.Keeps w.run
  order : first.run.visitOrder first.visitedCount <+: w.run.visitOrder w.visitedCount

theorem keeps_release (t : Terrain) (w : Walk) (next : List ObjectId) (e : PendingEdge) :
    w.run.Keeps (w.release t next e).1.run := by
  cases e with
  | root id =>
    simp only [release]
    split
    · next hu => exact Run.keeps_claim hu
    · exact .refl _
  | referent id holder role =>
    simp only [release]
    split
    · next hu =>
      have hclaim : w.run.Keeps (w.run.claim id holder) := Run.keeps_claim hu
      cases t.options.includeFieldInformation <;> exact hclaim
    · exact .refl _
  | revisit id =>
    simp only [release]
    split
    · exact .refl _
    · split
      · next hu => exact Run.keeps_claim hu
      · exact .refl _

theorem keeps_releaseAll (t : Terrain) (w : Walk) (next : List ObjectId) (es : List PendingEdge) :
    w.run.Keeps (releaseAll t w next es).1.run := by
  induction es generalizing w next with
  | nil => exact .refl _
  | cons e es ih => exact (keeps_release t w next e).trans (ih _ _)

theorem kept_extends (t : Terrain) (fresh : Run) (first : Walk) : Kept t fresh first.Extends where
  frontier _ h _ := ⟨h.keeps, h.order⟩
  visit {w _ next id _ _} hinv _ h := by
    refine ⟨?_, ?_⟩
    · obtain ⟨q, nominated, summary, heq, -⟩ := visit_eq t w next id
      rw [heq]
      exact h.keeps.trans (adopts_claims t w id).keeps
    · rw [hinv.visitOrder_visit]
      exact h.order.trans (List.prefix_append _ _)
  passOver {w _ _ id _ _} _ _ h := by
    refine ⟨?_, ?_⟩ <;> rw [run_passOver]
    · exact h.keeps
    · rw [(passOver_progress t w id).2]
      exact h.order
  advance {w _ _} _ _ h := by
    obtain ⟨run, roots, ⟨parents, roles, rfl⟩, heq⟩ :=
      releaseAll_eq t w.entering [] (w.queues.pending w.phase.next)
    have hkeeps := keeps_releaseAll t w.entering [] (w.queues.pending w.phase.next)
    rw [heq] at hkeeps
    rw [advance_eq, heq]
    exact ⟨h.keeps.trans hkeeps, h.order⟩

theorem forest_claimRoot {top : ObjectId → Prop} (h : Forest top w.run []) (hid : top id) :
    Forest top (w.claimRoot id).run [] := by
  by_cases hu : w.run.isUnclaimed id = true
  · rw [claimRoot_eq w id hu]
    exact h.claim hu (Or.inl ⟨rfl, hid⟩)
  · rw [show w.claimRoot id = w from if_neg hu]
    exact h

theorem forest_claimRoots {top : ObjectId → Prop} {ids : List ObjectId} (h : Forest top w.run [])
    (hids : ∀ id ∈ ids, top id) : Forest top (ids.foldl claimRoot w).run [] := by
  induction ids generalizing w with
  | nil => exact h
  | cons id ids ih =>
    apply ih (forest_claimRoot h (hids id List.mem_cons_self))
    exact fun v hv => hids v (List.mem_cons_of_mem id hv)

theorem forest_addRoots {top : ObjectId → Prop} {roots : List GcRoot} (h : Forest top w.run [])
    (hroots : ∀ r ∈ roots, r.stackFrame = false → top r.id) : Forest top (roots.foldl addRoot w).run [] := by
  induction roots generalizing w with
  | nil => exact h
  | cons r roots ih =>
    refine ih ?_ fun r' hr' => hroots r' (List.mem_cons_of_mem r hr')
    unfold Walk.addRoot
    split
    · split <;> exact h
    · next hplain => exact forest_claimRoot h (hroots r List.mem_cons_self (by simpa using hplain))

/-- A walk starts with seeds of the first phase that are their own parents. -/
theorem forest_start (hf : fresh.IsFresh) (nominated : List ClassId) :
    Forest (t.Seed .strongNonLocal) (start t fresh nominated).run [] := by
  have hnone := hf.not_isClaimed
  have hblank : Forest (t.Seed .strongNonLocal) fresh [] :=
    ⟨fun id hid => absurd hid List.not_mem_nil, fun id hid => absurd hid (hnone id),
      fun id hid => absurd hid (hnone id), fun i id hi => nomatch hi⟩
  have hroots : Forest (t.Seed .strongNonLocal) (t.graph.roots.foldl addRoot
      { run := fresh, nominated := nominated.map fun id => (id, []) }).run [] :=
    forest_addRoots hblank fun r hr hs => .root hr hs
  have hclasses : ∀ id ∈ t.graph.classes.toList.flatMap ClassDefinition.held,
      t.Seed .strongNonLocal id := by
    intro id hid
    obtain ⟨c, hc, hid⟩ := List.mem_flatMap.mp hid
    exact .held hc hid
  have hheld := forest_claimRoots hroots hclasses
  unfold start
  dsimp only
  split <;> exact hheld

theorem phase_start (hf : fresh.IsFresh) (nominated : List ClassId) :
    (start t fresh nominated).phase = .strongNonLocal := by
  obtain ⟨w, hw, heq⟩ := exists_opening t hf nominated
  rw [heq]
  exact hw.phase

theorem levels_start (hf : fresh.IsFresh) (nominated : List ClassId) :
    Levels t fresh.objectCount (start t fresh nominated).run [] (start t fresh nominated).frontier [] 0 := by
  have hinv := inv_start (t := t) hf nominated
  have hforest := forest_start (t := t) hf nominated
  have hphase := phase_start (t := t) hf nominated
  have htop : ∀ x, (start t fresh nominated).run.IsClaimed x → (start t fresh nominated).run.StepsUp x 0 := by
    intro x hx
    have hself := (hforest.parent x hx).resolve_right List.not_mem_nil
    exact .top (Run.parent?_eq_some_iff.mpr ⟨hx, hself⟩)
  refine ⟨fun x hx => ⟨0, Nat.zero_le _, htop x hx, (hinv.ledger.valid_iff x).mp hx.1, Or.inl ⟨rfl, ?_⟩⟩,
    fun x hv hs => htop x ?_, fun u hu => absurd hu List.not_mem_nil, List.Pairwise.nil,
    fun x hx => absurd hx List.not_mem_nil, fun x hx => htop x (hinv.claimed_of_open hx),
    fun x hx => absurd hx List.not_mem_nil⟩
  · exact hforest.top x hx ((hforest.parent x hx).resolve_right List.not_mem_nil)
  · have hpromised := hinv.queued.seeds .strongNonLocal (by rw [hphase]; exact Phase.le_refl _) x hv hs
    rw [hphase] at hpromised
    exact hpromised.claimed

end Walk

variable {graph : HeapGraph} {fresh run : Run} {traversal : Traversal}

/-- The order of visits begins with what the first phase reaches. For each of these objects parents lead in as
many steps to an object that is its own parent as a shortest path has edges that leads to it from a seed, and
along the order the steps never get fewer. -/
theorem traverse_shortestChains (hf : fresh.IsFresh) (ht : Traversed graph fresh run traversal) :
    ∃ first later, run.visitOrder traversal.visitedCount = first ++ later ∧
      (∀ x, x ∈ first ↔ (Terrain.of graph fresh).Reach fresh.objectCount .strongNonLocal x) ∧
      (∀ x ∈ first, ∃ n, run.StepsUp x n ∧
        IsLeast {m | (Terrain.of graph fresh).PathTo fresh.objectCount .strongNonLocal x m} n) ∧
      first.Pairwise fun x y => ∃ m n, run.StepsUp x m ∧ run.StepsUp y n ∧ m ≤ n := by
  obtain ⟨slices, journal, hend, rfl, hresult⟩ := Run.walked_of_traversed ht
  have hlevels := Walk.levels_start (t := .of graph fresh) hf
    (nominations graph fresh.config.perClass.classNames).1
  have hphase := Walk.phase_start (t := .of graph fresh) hf
    (nominations graph fresh.config.perClass.classNames).1
  obtain ⟨first, segment, held, d, fuel, j, hfirst, hnil, hat, hl, heq⟩ :=
    (Walk.inv_start hf _).exists_levels slices (Walk.turnLimit fresh) (fresh.prologue graph journal) hphase
      hlevels hend
  obtain ⟨-, -, -, hlater, -⟩ := hfirst.proceed (Walk.kept_extends (.of graph fresh) fresh first) slices fuel j
    ⟨.refl _, List.prefix_refl _⟩
  rw [← heq] at hlater
  obtain ⟨hkeeps, later, horder⟩ := hlater
  rw [hnil] at hfirst
  rw [hfirst.visits.order] at horder
  have hmem : ∀ x, x ∈ Phase.gather segment ↔
      (Terrain.of graph fresh).Reach fresh.objectCount .strongNonLocal x := by
    intro x
    rw [hfirst.mem_iff_reach, hat]
  refine ⟨Phase.gather segment, later, ?_, hmem, fun x hx => ?_, ?_⟩
  · rw [(Walk.traversal_eq hresult).1]
    exact horder.symm
  · obtain ⟨n, -, hn⟩ := hl.low x hx
    have hclaimed := hfirst.ledger.claimed x (List.mem_append_left _ hx)
    exact ⟨n, hn.mono hkeeps, hl.isLeast hmem hx hclaimed hn⟩
  · refine hl.sorted.imp ?_
    rintro x y ⟨m, n, hm, hn, hle⟩
    exact ⟨m, n, hm.mono hkeeps, hn.mono hkeeps, hle⟩

theorem traverse_shortestChains_crossedHeap : crossedRun.IsFresh ∧ ∃ traversal,
    Traversed crossedHeap crossedRun crossedVisits traversal ∧
    crossedVisits.visitOrder traversal.visitedCount = [1, 6, 2, 3, 5, 4] ∧
    (List.range' 1 6).map crossedVisits.parent? = [some 1, some 1, some 6, some 3, some 2, some 1] ∧
    ∃ first later, crossedVisits.visitOrder traversal.visitedCount = first ++ later ∧
      (∀ x, x ∈ first ↔ (Terrain.of crossedHeap crossedRun).Reach crossedRun.objectCount .strongNonLocal x) ∧
      (∀ x ∈ first, ∃ n, crossedVisits.StepsUp x n ∧
        IsLeast {m | (Terrain.of crossedHeap crossedRun).PathTo crossedRun.objectCount .strongNonLocal x m} n) ∧
      first.Pairwise fun x y => ∃ m n, crossedVisits.StepsUp x m ∧ crossedVisits.StepsUp y n ∧ m ≤ n := by
  have hvisits : (crossedRun.traverse crossedHeap [] {}).result.toOption.any (fun traversal =>
      crossedVisits.visitOrder traversal.visitedCount = [1, 6, 2, 3, 5, 4] ∧
        (List.range' 1 6).map crossedVisits.parent? =
          [some 1, some 1, some 6, some 3, some 2, some 1]) = true := by
    decide +kernel
  obtain ⟨traversal, hresult, hvisits⟩ := exists_ok_of_any hvisits
  obtain ⟨horder, hparents⟩ := of_decide_eq_true hvisits
  have ht := traversed_of_result hresult
  exact ⟨crossedRun_isFresh, traversal, ht, horder, hparents,
    traverse_shortestChains crossedRun_isFresh ht⟩

end HeapRetention
