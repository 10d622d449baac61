import HeapRetention.Analysis
import HeapRetention.Proofs.DominatorsMet
import HeapRetention.Proofs.WalkComparison

/-! Cancellation is all or nothing. An analysis asks its caller after every wave and at most three times in
the dominator stage, and the answers are all that it takes from the caller. A caller whose patience lasts for
every question gets the analysis that nobody stops; any other gets a cancellation at the first question that
it refuses. -/
namespace HeapRetention

namespace Journal

/-- The same journal before a caller that lets `n` questions pass and then says stop. -/
def within (j : Journal) (n : Nat) : Journal :=
  { j with patience? := some n }

/-- A step that says something but asks nothing. -/
structure Silent (h : Journal → Journal) : Prop where
  polls : ∀ j, (h j).polls = j.polls
  patience? : ∀ j, (h j).patience? = j.patience?
  within : ∀ j n, h (j.within n) = (h j).within n

theorem silent_id : Silent fun j => j :=
  ⟨fun _ => rfl, fun _ => rfl, fun _ _ => rfl⟩

theorem silent_log (level : LogLevel) (message : String) : Silent fun j => j.log level message :=
  ⟨fun _ => rfl, fun _ => rfl, fun _ _ => rfl⟩

theorem silent_stage (text : String) : Silent fun j => j.stage text :=
  ⟨fun _ => rfl, fun _ => rfl, fun _ _ => rfl⟩

theorem silent_fraction (slices : List Slice) (f : Float) : Silent fun j => j.fraction slices f :=
  ⟨fun _ => rfl, fun _ => rfl, fun _ _ => rfl⟩

theorem Silent.comp {h k : Journal → Journal} (hk : Silent k) (hh : Silent h) : Silent fun j => k (h j) where
  polls j := (hk.polls _).trans (hh.polls j)
  patience? j := (hk.patience? _).trans (hh.patience? j)
  within j n := by rw [hh.within, hk.within]

theorem silent_foldl {α : Type} {f : Journal → α → Journal} (hf : ∀ a, Silent fun j => f j a)
    (as : List α) : Silent fun j => as.foldl f j := by
  induction as with
  | nil => exact silent_id
  | cons a as ih => exact ih.comp (hf a)

end Journal

/-- A computation that does the same before a caller with limited patience, as long as the patience lasts;
at the first question beyond it the computation ends with a cancellation. -/
structure HeedsAt {α : Type} (f : Journal → Journal × Except Failure α) (j : Journal) : Prop where
  asks : j.polls ≤ (f j).1.polls
  unlimited : (f j).1.patience? = none
  same : ∀ n, (f j).1.polls ≤ n → f (j.within n) = ((f j).1.within n, (f j).2)
  stops : ∀ n, j.polls ≤ n → n < (f j).1.polls →
    (f (j.within n)).2 = .error (.error .canceled) ∧ (f (j.within n)).1.polls = n + 1

/-- A computation heeds its caller whatever was said and asked before. -/
def Heeds {α : Type} (f : Journal → Journal × Except Failure α) : Prop :=
  ∀ j, j.patience? = none → HeedsAt f j

/-- Goes on with a result; a failure stays as it is. -/
def andThen {α β : Type} (g : α → Journal → Journal × Except Failure β) :
    Journal × Except Failure α → Journal × Except Failure β
  | (j, .error e) => (j, .error e)
  | (j, .ok a) => g a j

namespace Heeds
variable {α β : Type} {h : Journal → Journal} {f : Journal → Journal × Except Failure α}

/-- A step that asks nothing may end in any way. -/
theorem silent (hh : Journal.Silent h) (r : Except Failure α) : Heeds fun j => (h j, r) := by
  intro j hj
  have hpolls := hh.polls j
  refine ⟨Nat.le_of_eq hpolls.symm, (hh.patience? j).trans hj, ?_, ?_⟩
  · intro n _
    dsimp only
    rw [hh.within]
  · intro n hle hlt
    dsimp only at hlt
    omega

/-- What is said before a computation does not change how it heeds its caller. -/
theorem after (hf : Heeds f) (hh : Journal.Silent h) : Heeds fun j => f (h j) := by
  intro j hj
  have hpolls := hh.polls j
  have hfj := hf (h j) ((hh.patience? j).trans hj)
  refine ⟨hpolls ▸ hfj.asks, hfj.unlimited, ?_, ?_⟩
  · intro n hn
    rw [hh.within]
    exact hfj.same n hn
  · intro n hle hlt
    rw [hh.within]
    exact hfj.stops n (hpolls ▸ hle) hlt

/-- A computation that goes on with the result of another one. -/
theorem bind {g : α → Journal → Journal × Except Failure β} (hf : Heeds f) (hg : ∀ a, Heeds (g a)) :
    Heeds fun j => andThen g (f j) := by
  intro j hj
  have hfj := hf j hj
  -- a question that is refused in the first part ends the whole
  have hfirst : ∀ n, j.polls ≤ n → n < (f j).1.polls →
      ∃ j', f (j.within n) = (j', .error (.error .canceled)) ∧ j'.polls = n + 1 := by
    intro n hle hlt
    obtain ⟨hcanceled, hpolls⟩ := hfj.stops n hle hlt
    exact ⟨_, Prod.ext rfl hcanceled, hpolls⟩
  cases hresult : (f j).2 with
  | error e =>
    have hend : f j = ((f j).1, .error e) := Prod.ext rfl hresult
    refine ⟨?_, ?_, ?_, ?_⟩ <;> rw [hend]
    · exact hfj.asks
    · exact hfj.unlimited
    · intro n hn
      rw [hfj.same n hn, hresult]
      rfl
    · intro n hle hlt
      obtain ⟨j', hcanceled, hpolls⟩ := hfirst n hle hlt
      rw [hcanceled]
      exact ⟨rfl, hpolls⟩
  | ok a =>
    have hend : f j = ((f j).1, .ok a) := Prod.ext rfl hresult
    have hgj := hg a (f j).1 hfj.unlimited
    refine ⟨?_, ?_, ?_, ?_⟩ <;> rw [hend]
    · exact Nat.le_trans hfj.asks hgj.asks
    · exact hgj.unlimited
    · intro n hn
      rw [hfj.same n (Nat.le_trans hgj.asks hn), hresult]
      exact hgj.same n hn
    · intro n hle hlt
      rcases Nat.lt_or_ge n (f j).1.polls with hearly | hlate
      · obtain ⟨j', hcanceled, hpolls⟩ := hfirst n hle hearly
        rw [hcanceled]
        exact ⟨rfl, hpolls⟩
      · rw [hfj.same n hlate, hresult]
        exact hgj.stops n hlate hlt

/-- Another view of the result changes nothing, as long as it leaves a cancellation alone. -/
theorem map {say : Except Failure α → Journal → Journal} {view : Except Failure α → Except Failure β}
    (hf : Heeds f) (hsay : ∀ r, Journal.Silent (say r))
    (hview : view (.error (.error .canceled)) = .error (.error .canceled)) :
    Heeds fun j => (say (f j).2 (f j).1, view (f j).2) := by
  intro j hj
  have hfj := hf j hj
  have hpolls : ∀ r j, (say r j).polls = j.polls := fun r => (hsay r).polls
  exact {
    asks := by
      rw [hpolls]
      exact hfj.asks
    unlimited := ((hsay _).patience? _).trans hfj.unlimited
    same := by
      intro n hn
      rw [hpolls] at hn
      rw [hfj.same n hn, (hsay _).within]
    stops := by
      intro n hle hlt
      rw [hpolls] at hlt
      obtain ⟨hcanceled, hasked⟩ := hfj.stops n hle hlt
      rw [hcanceled, hpolls]
      exact ⟨hview, hasked⟩ }

/-- A computation that goes on once its caller has let a question pass. -/
theorem ask (hf : Heeds f) (slices : List Slice) (fraction : Float) :
    Heeds fun j =>
      if (j.fraction slices fraction).poll.1 then
        ((j.fraction slices fraction).poll.2, .error (.error .canceled))
      else f (j.fraction slices fraction).poll.2 := by
  intro j hj
  have hfj := hf (j.fraction slices fraction).poll.2 hj
  have hasks : j.polls + 1 ≤ (f (j.fraction slices fraction).poll.2).1.polls := hfj.asks
  have hpass : ¬(j.fraction slices fraction).poll.1 = true := by
    rw [Journal.poll_fraction hj]
    exact Bool.false_ne_true
  have hanswer : ∀ n, ((j.within n).fraction slices fraction).poll.1 = decide (n ≤ j.polls) := fun _ => rfl
  have hnext : ∀ n, ((j.within n).fraction slices fraction).poll.2 =
      (j.fraction slices fraction).poll.2.within n := fun _ => rfl
  refine ⟨?_, ?_, ?_, ?_⟩ <;> rw [if_neg hpass]
  · omega
  · exact hfj.unlimited
  · intro n hn
    have hpatient : ¬decide (n ≤ j.polls) = true := by
      simp only [decide_eq_true_eq]
      omega
    rw [hanswer, hnext, if_neg hpatient]
    exact hfj.same n hn
  · intro n hle hlt
    rw [hanswer, hnext]
    by_cases hrefuse : n ≤ j.polls
    · rw [if_pos (decide_eq_true hrefuse)]
      have hasked : ((j.fraction slices fraction).poll.2.within n).polls = j.polls + 1 := rfl
      exact ⟨rfl, by rw [hasked]; omega⟩
    · rw [if_neg (by simpa using hrefuse)]
      apply hfj.stops n _ hlt
      change j.polls + 1 ≤ n
      omega

end Heeds

namespace Walk
variable {t : Terrain} {w : Walk} {j : Journal}

/-- A walk that has come to its end, or the failure that ended it. -/
def outcome : Walk × Journal × Option Failure → Journal × Except Failure Walk
  | (w, j, none) => (j, .ok w)
  | (_, j, some failure) => (j, .error failure)

/-- The turns of a walk, with the walk where they end as their result. -/
def course (t : Terrain) (slices : List Slice) (fuel : Nat) (w : Walk) (j : Journal) :
    Journal × Except Failure Walk :=
  outcome (w.proceed t slices fuel j)

theorem course_succ (t : Terrain) (slices : List Slice) (fuel : Nat) (w : Walk) (j : Journal) :
    course t slices (fuel + 1) w j =
      if w.isDone then (j, .ok w)
      else if w.frontier.isEmpty then course t slices fuel (w.turn t) j
      else
        match (w.turn t).crash? with
        | some c => (j, .error (.crash c))
        | none =>
          let asked := (j.fraction slices
            (ratio (w.turn t).summary.visitedInstances (max t.graph.objectCount 1))).poll
          if asked.1 then (asked.2, .error (.error .canceled)) else course t slices fuel (w.turn t) asked.2 := by
  unfold course
  rw [proceed]
  split
  · rfl
  · split
    · rfl
    · dsimp only
      cases (w.turn t).crash? with
      | some c => rfl
      | none =>
        dsimp only
        split <;> rfl

/-- A walk heeds its caller at the end of every wave. -/
theorem heeds_course (t : Terrain) (slices : List Slice) (fuel : Nat) (w : Walk) :
    Heeds (course t slices fuel w) := by
  induction fuel generalizing w with
  | zero => exact Heeds.silent Journal.silent_id _
  | succ fuel ih =>
    rw [show course t slices (fuel + 1) w = _ from funext (course_succ t slices fuel w)]
    by_cases hdone : w.isDone = true
    · simp only [if_pos hdone]
      exact Heeds.silent Journal.silent_id _
    simp only [if_neg hdone]
    by_cases hempty : w.frontier.isEmpty = true
    · simp only [if_pos hempty]
      exact ih _
    simp only [if_neg hempty]
    cases (w.turn t).crash? with
    | some c => exact Heeds.silent Journal.silent_id _
    | none => exact (ih _).ask slices _

/-- The number of waves among the next turns of a walk. -/
def waves (t : Terrain) : (turns : Nat) → Walk → Nat
  | 0, _ => 0
  | turns + 1, w =>
    if w.isDone then 0
    else if w.frontier.isEmpty then waves t turns (w.turn t)
    else waves t turns (w.turn t) + 1

variable {fresh : Run} {segment : Phase → List ObjectId} {held : List ObjectId}

/-- One question is asked for every wave. -/
theorem Inv.polls_course (slices : List Slice) (fuel : Nat) (hj : j.patience? = none)
    (h : Inv t fresh w segment w.frontier held) :
    (course t slices fuel w j).1.polls = j.polls + waves t fuel w := by
  induction fuel generalizing w segment held j with
  | zero => rfl
  | succ fuel ih =>
    rw [course_succ, waves]
    by_cases hdone : w.isDone = true
    · rw [if_pos hdone, if_pos hdone]
      rfl
    rw [if_neg hdone, if_neg hdone]
    by_cases hempty : w.frontier.isEmpty = true
    · obtain ⟨-, -, hturn, held', hnext⟩ := h.turn_of_isEmpty hdone hempty
      rw [if_pos hempty, if_pos hempty, hturn]
      exact ih hj hnext
    · obtain ⟨segment', held', hnext, -⟩ := h.wave kept_true trivial
      have hturn : w.turn t = w.wave t := if_neg hempty
      rw [if_neg hempty, if_neg hempty, hturn, hnext.crash]
      dsimp only
      rw [Journal.poll_fraction hj, if_neg Bool.false_ne_true]
      have hrest := ih (j := (j.fraction slices
        (ratio (w.wave t).summary.visitedInstances (max t.graph.objectCount 1))).poll.2) hj hnext
      have hasked : (j.fraction slices
        (ratio (w.wave t).summary.visitedInstances (max t.graph.objectCount 1))).poll.2.polls = j.polls + 1 := rfl
      rw [hrest, hasked]
      omega

end Walk

namespace Run
variable (fresh : Run) (graph : HeapGraph) (slices : List Slice)

/-- The waves of the walk over a heap. -/
def waves : Nat :=
  (fresh.opening graph).waves (.of graph fresh) (Walk.turnLimit fresh)

/-- A traversal as a computation with a journal; its result is the run with what was found. -/
def attempt (journal : Journal) : Journal × Except Failure (Run × Traversal) :=
  let a := fresh.traverse graph slices journal
  (a.journal, a.result.map fun traversal => (a.run, traversal))

/-- What becomes of a walk that has come to its end. -/
def settle (w : Walk) (journal : Journal) : Journal × Except Failure (Run × Traversal) :=
  if !w.queues.isEmpty then (journal, .error (.crash .leftovers))
  else (journal.log .info w.logLine,
    ((w.traversal graph.classes).mapError .crash).map fun traversal => (w.run, traversal))

theorem attempt_eq (journal : Journal) :
    fresh.attempt graph slices journal =
      andThen (settle graph) ((fresh.opening graph).course (.of graph fresh) slices (Walk.turnLimit fresh)
        (fresh.prologue graph journal)) := by
  unfold attempt Walk.course
  rw [traverse_eq]
  unfold walked
  obtain ⟨w, j, failure?⟩ := (fresh.opening graph).proceed (.of graph fresh) slices (Walk.turnLimit fresh)
    (fresh.prologue graph journal)
  cases failure? with
  | some failure => rfl
  | none =>
    dsimp only [Walk.outcome, andThen, settle]
    split <;> rfl

theorem silent_prologue : Journal.Silent (fresh.prologue graph) := by
  have hfold := Journal.silent_foldl (fun name => Journal.silent_log .warn
    ("nominated class \x60" ++ name ++ "\x60 does not exist in this heap"))
    (nominations graph fresh.config.perClass.classNames).2
  exact (Journal.silent_stage _).comp ((Journal.silent_stage _).comp hfold)

theorem heeds_settle (w : Walk) : Heeds (settle graph w) := by
  unfold settle
  split
  · exact Heeds.silent Journal.silent_id _
  · exact Heeds.silent (Journal.silent_log _ _) _

theorem heeds_attempt : Heeds (fresh.attempt graph slices) := by
  rw [show fresh.attempt graph slices = _ from funext (fresh.attempt_eq graph slices)]
  have hwalk := Walk.heeds_course (.of graph fresh) slices (Walk.turnLimit fresh) (fresh.opening graph)
  exact (hwalk.after (silent_prologue fresh graph)).bind (heeds_settle graph)

variable {fresh : Run} {graph : HeapGraph} {slices : List Slice} {j : Journal}

/-- A traversal asks once a wave, however it ends. -/
theorem polls_attempt (hf : fresh.IsFresh) (hj : j.patience? = none) :
    (fresh.attempt graph slices j).1.polls = j.polls + fresh.waves graph := by
  have hsaid := silent_prologue fresh graph
  have hstart : Walk.Inv (.of graph fresh) fresh (fresh.opening graph) _ (fresh.opening graph).frontier [] :=
    Walk.inv_start hf _
  have hwalk := hstart.polls_course slices (Walk.turnLimit fresh) ((hsaid.patience? j).trans hj)
  rw [hsaid.polls] at hwalk
  have hsettle : ∀ r : Journal × Except Failure Walk, (andThen (settle graph) r).1.polls = r.1.polls := by
    intro r
    obtain ⟨j, e | w⟩ := r
    · rfl
    · dsimp only [andThen, settle]
      split <;> rfl
  rw [attempt_eq, hsettle]
  exact hwalk

end Run

namespace DominatorStage
variable {g : FlowGraph} {traversal : Traversal} {space : ScratchSpace} {slices : List Slice} {j : Journal}

theorem silent_logPasses (passes : List PassCounts) : Journal.Silent fun j => logPasses j passes := by
  unfold logPasses
  have hfold := Journal.silent_foldl (fun (p : PassCounts × Nat) => Journal.silent_log .debug
    ("iteration " ++ toString p.2 ++ " recomputed " ++ toString p.1.updates ++ " and changed " ++
      toString p.1.changed ++ " idoms in " ++ Elapsed.unmeasured.text ++ "; called intersect() " ++
      toString p.1.intersections ++ " times")) passes.zipIdx
  dsimp only
  split
  · exact hfold
  · exact (Journal.silent_log _ _).comp hfold

/-- Goes on after a checkpoint unless the caller says stop there. -/
def beyond {α : Type} (slices : List Slice) (fraction : Float) (f : Journal → Journal × Except Failure α)
    (j : Journal) : Journal × Except Failure α :=
  let (stop, j) := checkpoint j slices fraction
  if stop then (j, .error (.error .canceled)) else f j

/-- The stage beyond its last checkpoint. -/
def present (slices : List Slice) (tree : DominatorTree) (j : Journal) : Journal × Except Failure DominatorTree :=
  let j := ((j.stage "Computing retained sizes").stage "Building flame graph").fraction slices 1.0
  (j.log .info ("dominator tree over " ++ toString tree.nodeCount ++ " nodes computed in " ++
    toString tree.stats.iterations ++ " iterations (" ++ tree.stats.totalTime.text ++ ")"), .ok tree)

/-- The stage once its edges are indexed. -/
def dominate (g : FlowGraph) (traversal : Traversal) (slices : List Slice) (p : Postorder) (x : EdgeIndex)
    (j : Journal) : Journal × Except Failure DominatorTree :=
  let (idoms, passes) := solve g p x
  beyond slices 0.8 (present slices (tree g traversal p idoms passes))
    (logPasses (j.stage "Computing dominators") passes)

/-- The stage once its objects are numbered. -/
def connect (g : FlowGraph) (traversal : Traversal) (space : ScratchSpace) (slices : List Slice) (p : Postorder)
    (j : Journal) : Journal × Except Failure DominatorTree :=
  let j := j.stage "Computing incoming edges"
  match index g (room g traversal) space p with
  | .error f => (j, .error f)
  | .ok x => beyond slices 0.4 (dominate g traversal slices p x) j

/-- What the log gets once the objects are numbered. -/
def announce (p : Postorder) (j : Journal) : Journal :=
  (j.stage "Computing postorder numbers").log .debug ("postorder numbering reached " ++
    toString (p.superRoot - 1) ++ " nodes over " ++ toString p.edgeCount ++ " edges")

theorem compute_eq (g : FlowGraph) (traversal : Traversal) (space : ScratchSpace) (slices : List Slice) :
    compute g traversal space slices =
      match number g (room g traversal) space with
      | .error f => fun j => (j.stage "Computing postorder numbers", .error f)
      | .ok p => fun j => beyond slices 0.2 (connect g traversal space slices p) (announce p j) := by
  funext j
  unfold compute
  dsimp only
  cases number g (room g traversal) space with
  | error f => rfl
  | ok p =>
    unfold connect
    cases index g (room g traversal) space p <;> rfl

theorem checkpoint_of_patient {fraction : Float} (hj : j.patience? = none) :
    (checkpoint j slices fraction).1 = false :=
  Journal.poll_fraction hj slices fraction

theorem beyond_of_patient {α : Type} {f : Journal → Journal × Except Failure α} (hj : j.patience? = none)
    (fraction : Float) : ∃ j', j'.patience? = none ∧ beyond slices fraction f j = f j' := by
  refine ⟨(checkpoint j slices fraction).2, hj, ?_⟩
  unfold beyond
  dsimp only
  rw [checkpoint_of_patient hj]
  rfl

/-- The stage heeds its caller at each of its checkpoints. -/
theorem heeds_compute (g : FlowGraph) (traversal : Traversal) (space : ScratchSpace) (slices : List Slice) :
    Heeds (compute g traversal space slices) := by
  have hpresent : ∀ tree, Heeds (present slices tree) := by
    intro tree
    have hlast := ((Journal.silent_fraction slices 1.0).comp
      (Journal.silent_stage "Building flame graph")).comp (Journal.silent_stage "Computing retained sizes")
    exact Heeds.silent ((Journal.silent_log _ _).comp hlast) _
  have hdominate : ∀ p x, Heeds (dominate g traversal slices p x) := by
    intro p x
    have hlogged := (silent_logPasses (solve g p x).2).comp (Journal.silent_stage "Computing dominators")
    exact ((hpresent _).ask slices 0.8).after hlogged
  have hconnect : ∀ p, Heeds (connect g traversal space slices p) := by
    intro p
    unfold connect
    cases index g (room g traversal) space p with
    | error f => exact Heeds.silent (Journal.silent_stage _) _
    | ok x => exact ((hdominate p x).ask slices 0.4).after (Journal.silent_stage _)
  rw [compute_eq]
  cases number g (room g traversal) space with
  | error f => exact Heeds.silent (Journal.silent_stage _) _
  | ok p =>
    have hannounced := (Journal.silent_log .debug ("postorder numbering reached " ++
      toString (p.superRoot - 1) ++ " nodes over " ++ toString p.edgeCount ++ " edges")).comp
        (Journal.silent_stage "Computing postorder numbers")
    exact ((hconnect p).ask slices 0.2).after hannounced

/-- A checkpoint asks once. -/
theorem polls_beyond {α : Type} {f : Journal → Journal × Except Failure α} {n : Nat}
    (hf : ∀ j, (f j).1.polls ≤ j.polls + n) (slices : List Slice) (fraction : Float) (j : Journal) :
    (beyond slices fraction f j).1.polls ≤ j.polls + (n + 1) := by
  have hrest := hf (checkpoint j slices fraction).2
  have hasked : (checkpoint j slices fraction).2.polls = j.polls + 1 := rfl
  unfold beyond
  dsimp only
  split
  · dsimp only
    omega
  · omega

/-- The stage has three checkpoints. -/
theorem polls_compute (j : Journal) : (compute g traversal space slices j).1.polls ≤ j.polls + 3 := by
  have hpresent : ∀ tree j, (present slices tree j).1.polls ≤ j.polls + 0 := fun _ _ => Nat.le_refl _
  have hdominate : ∀ p x j, (dominate g traversal slices p x j).1.polls ≤ j.polls + 1 := by
    intro p x j
    have hlogged := (silent_logPasses (solve g p x).2).polls (j.stage "Computing dominators")
    have hasks := polls_beyond (hpresent (tree g traversal p (solve g p x).1 (solve g p x).2)) slices 0.8
      (logPasses (j.stage "Computing dominators") (solve g p x).2)
    rw [hlogged] at hasks
    exact hasks
  have hconnect : ∀ p j, (connect g traversal space slices p j).1.polls ≤ j.polls + 2 := by
    intro p j
    unfold connect
    cases index g (room g traversal) space p with
    | error f => exact Nat.le_add_right _ _
    | ok x => exact polls_beyond (hdominate p x) slices 0.4 (j.stage "Computing incoming edges")
  rw [compute_eq]
  cases number g (room g traversal) space with
  | error f => exact Nat.le_add_right _ _
  | ok p => exact polls_beyond (hconnect p) slices 0.2 (announce p j)

end DominatorStage

namespace Analysis
variable {input : AnalysisInput} {journal : Journal}

/-- What the outcome of the stage is said to be. Only a cancellation is passed on. -/
def stageView : Except Failure DominatorTree → Except Failure DominatorOutcome
  | .ok tree => .ok (.computed tree)
  | .error (.error .canceled) => .error (.error .canceled)
  | .error (.error e) => .ok (.failed e.describe)
  | .error (.crash c) => .ok (.failed c.describe)

/-- What the log gets at the end of the stage. -/
def stageWarning : Except Failure DominatorTree → Journal → Journal
  | .ok _, j => j
  | .error (.error .canceled), j => j
  | .error (.error e), j => j.log .warn ("dominator tree failed: " ++ e.describe)
  | .error (.crash c), j => j.log .warn ("dominator tree panicked: " ++ c.describe)

theorem silent_stageWarning (r : Except Failure DominatorTree) : Journal.Silent (stageWarning r) := by
  match r with
  | .ok _ => exact Journal.silent_id
  | .error (.crash _) => exact Journal.silent_log _ _
  | .error (.error e) =>
    cases e with
    | canceled => exact Journal.silent_id
    | _ => exact Journal.silent_log _ _

/-- A cancellation is passed on through the stage, whatever else becomes an outcome. -/
theorem heeds_dominatorOutcome (input : AnalysisInput) (run : Run) (t : Traversal) (slices : List Slice) :
    Heeds (dominatorOutcome input run t slices) := by
  have hcompute := DominatorStage.heeds_compute (.of run input.snapshot t) t input.space slices
  have hstage := @Heeds.map _ _ _ _ stageView hcompute silent_stageWarning rfl
  unfold dominatorOutcome
  dsimp only
  split
  · exact Heeds.silent Journal.silent_id _
  split
  · exact Heeds.silent (Journal.silent_log _ _) _
  split
  · exact Heeds.silent (Journal.silent_log _ _) _
  · refine cast (congrArg Heeds (funext fun j => ?_)) hstage
    obtain ⟨j', r⟩ := DominatorStage.compute (.of run input.snapshot t) t input.space slices j
    match r with
    | .ok _ => rfl
    | .error (.crash _) => rfl
    | .error (.error e) => cases e <;> rfl

theorem polls_dominatorOutcome (run : Run) (t : Traversal) (slices : List Slice) :
    (dominatorOutcome input run t slices journal).1.polls ≤ journal.polls + 3 := by
  have hcompute := @DominatorStage.polls_compute (.of run input.snapshot t) t input.space slices journal
  unfold dominatorOutcome
  dsimp only
  split
  · exact Nat.le_add_right _ _
  split
  · exact Nat.le_add_right _ _
  split
  · exact Nat.le_add_right _ _
  -- what the log gets at the end asks nothing
  generalize DominatorStage.compute (.of run input.snapshot t) t input.space slices journal = r at hcompute ⊢
  split <;> exact hcompute

/-- An analysis once its dominator stage has ended. -/
def conclude (input : AnalysisInput) (run : Run) (t : Traversal) (dominators : DominatorOutcome)
    (j : Journal) : Journal × Except Failure Analysis :=
  let j := j.stage "Preparing report"
  match finish input run t dominators with
  | .error c => (j, .error (.crash c))
  | .ok analysis =>
    ((j.fraction [] 1.0).log .info ("analysis completed in " ++ Elapsed.unmeasured.text), .ok analysis)

/-- An analysis once its traversal is done. -/
def dominate (input : AnalysisInput) (found : Run × Traversal) (j : Journal) :
    Journal × Except Failure Analysis :=
  andThen (conclude input found.1 found.2) (dominatorOutcome input found.1 found.2 [⟨0.5, 0.4⟩] j)

theorem analyze_eq (input : AnalysisInput) :
    analyze input =
      match Run.create input.config input.snapshot.graph.objectCount input.tree? input.space with
      | .error f => fun j => (j, .error f)
      | .ok fresh => fun j => andThen (dominate input) (fresh.attempt input.snapshot.graph [⟨0.0, 0.5⟩] j) := by
  funext j
  unfold analyze Run.attempt
  cases Run.create input.config input.snapshot.graph.objectCount input.tree? input.space with
  | error f => rfl
  | ok fresh =>
    dsimp only
    generalize fresh.traverse input.snapshot.graph [⟨0.0, 0.5⟩] j = found
    obtain ⟨run, j', f | t⟩ := found
    · rfl
    · dsimp only [Except.map, andThen, dominate]
      generalize dominatorOutcome input run t [⟨0.5, 0.4⟩] j' = outcome
      obtain ⟨j'', f | dominators⟩ := outcome <;> rfl

theorem conclude_silent (input : AnalysisInput) (run : Run) (t : Traversal) (dominators : DominatorOutcome) :
    ∃ say r, Journal.Silent say ∧ conclude input run t dominators = fun j => (say j, r) := by
  unfold conclude
  dsimp only
  have hprepared := Journal.silent_stage "Preparing report"
  cases finish input run t dominators with
  | error c => exact ⟨_, _, hprepared, rfl⟩
  | ok a =>
    have hlast := (Journal.silent_fraction [] 1.0).comp hprepared
    exact ⟨_, _, (Journal.silent_log .info _).comp hlast, rfl⟩

theorem heeds_dominate (found : Run × Traversal) : Heeds (dominate input found) := by
  apply (heeds_dominatorOutcome input found.1 found.2 [⟨0.5, 0.4⟩]).bind
  intro dominators
  obtain ⟨say, r, hsay, heq⟩ := conclude_silent input found.1 found.2 dominators
  rw [heq]
  exact Heeds.silent hsay r

theorem polls_dominate (found : Run × Traversal) (j : Journal) :
    (dominate input found j).1.polls ≤ j.polls + 3 := by
  have hstage := @polls_dominatorOutcome input j found.1 found.2 [⟨0.5, 0.4⟩]
  unfold dominate
  generalize dominatorOutcome input found.1 found.2 [⟨0.5, 0.4⟩] j = outcome at hstage ⊢
  obtain ⟨j', f | dominators⟩ := outcome
  · exact hstage
  · obtain ⟨say, r, hsay, heq⟩ := conclude_silent input found.1 found.2 dominators
    dsimp only [andThen]
    rw [heq]
    exact (hsay.polls j').trans_le hstage

theorem heeds_analyze (input : AnalysisInput) : Heeds (analyze input) := by
  rw [analyze_eq]
  cases Run.create input.config input.snapshot.graph.objectCount input.tree? input.space with
  | error f => exact Heeds.silent Journal.silent_id _
  | ok fresh => exact (fresh.heeds_attempt input.snapshot.graph [⟨0.0, 0.5⟩]).bind heeds_dominate

/-- An analysis that is done has asked once a wave, and at most three times after that. -/
theorem polls_analyze {a : Analysis} (hj : journal.patience? = none) (ha : (analyze input journal).2 = .ok a) :
    ∃ fresh, Run.create input.config input.snapshot.graph.objectCount input.tree? input.space = .ok fresh ∧
      journal.polls + fresh.waves input.snapshot.graph ≤ (analyze input journal).1.polls ∧
      (analyze input journal).1.polls ≤ journal.polls + fresh.waves input.snapshot.graph + 3 := by
  rw [analyze_eq] at ha ⊢
  cases hfresh : Run.create input.config input.snapshot.graph.objectCount input.tree? input.space with
  | error f =>
    rw [hfresh] at ha
    cases ha
  | ok fresh =>
    rw [hfresh] at ha
    dsimp only at ha ⊢
    have hasked := @Run.polls_attempt fresh input.snapshot.graph [⟨0.0, 0.5⟩] journal ⟨_, _, _, _, hfresh⟩ hj
    have hquiet := (fresh.heeds_attempt input.snapshot.graph [⟨0.0, 0.5⟩] journal hj).unlimited
    generalize fresh.attempt input.snapshot.graph [⟨0.0, 0.5⟩] journal = attempt at ha hasked hquiet ⊢
    obtain ⟨j, f | found⟩ := attempt
    · cases ha
    · have hleast := (@heeds_dominate input found j hquiet).asks
      have hmost := @polls_dominate input found j
      refine ⟨fresh, rfl, ?_⟩
      rw [← hasked]
      exact ⟨hleast, hmost⟩

end Analysis

/-- Cancellation is all or nothing. Take an analysis that succeeds while nobody stops it. A caller that says
stop at one of its questions gets nothing but the cancellation; a caller whose patience lasts gets the same
analysis. The questions are one for each wave and at most three more, and one that is refused within the
dominator stage never becomes an outcome of that stage. -/
theorem analyze_cancels_or_agrees {input : AnalysisInput} {journal : Journal} {a : Analysis}
    (hj : journal.patience? = none) (ha : (Analysis.analyze input journal).2 = .ok a) :
    (∀ n, journal.polls ≤ n → n < (Analysis.analyze input journal).1.polls →
      (Analysis.analyze input (journal.within n)).2 = .error (.error .canceled)) ∧
    (∀ n, (Analysis.analyze input journal).1.polls ≤ n →
      (Analysis.analyze input (journal.within n)).2 = .ok a) ∧
    (∃ fresh, Run.create input.config input.snapshot.graph.objectCount input.tree? input.space = .ok fresh ∧
      journal.polls + fresh.waves input.snapshot.graph ≤ (Analysis.analyze input journal).1.polls ∧
      (Analysis.analyze input journal).1.polls ≤ journal.polls + fresh.waves input.snapshot.graph + 3) ∧
    ∀ run t slices (j : Journal) n, j.patience? = none → j.polls ≤ n →
      n < (Analysis.dominatorOutcome input run t slices j).1.polls →
      (Analysis.dominatorOutcome input run t slices (j.within n)).2 = .error (.error .canceled) := by
  have hheeds := Analysis.heeds_analyze input journal hj
  refine ⟨?_, ?_, Analysis.polls_analyze hj ha, ?_⟩
  · intro n hle hlt
    exact (hheeds.stops n hle hlt).1
  · intro n hn
    rw [hheeds.same n hn]
    exact ha
  · intro run t slices j n hquiet hle hlt
    exact ((Analysis.heeds_dominatorOutcome input run t slices j hquiet).stops n hle hlt).1

/-- An analysis whose dominator stage comes to its end. -/
def crossedInput : AnalysisInput where
  snapshot := { graph := crossedHeap }
  tree? := none
  config := {}
  space := { available := .ok 1000000000 }

set_option maxRecDepth 10000 in
theorem analyze_cancels_or_agrees_crossedHeap : ({} : Journal).patience? = none ∧
    ∃ a, (Analysis.analyze crossedInput {}).2 = .ok a ∧ (Analysis.analyze crossedInput {}).1.polls = 7 ∧
      (Analysis.analyze crossedInput (({} : Journal).within 6)).2 = .error (.error .canceled) ∧
      (Analysis.analyze crossedInput (({} : Journal).within 7)).2 = .ok a := by
  have hdone : (Analysis.analyze crossedInput {}).2.toOption.any (fun _ => true) = true := by
    decide +kernel
  have hasked : (Analysis.analyze crossedInput {}).1.polls = 7 := by
    decide +kernel
  obtain ⟨a, ha, -⟩ := exists_ok_of_any hdone
  obtain ⟨hstops, hsame, -, -⟩ := analyze_cancels_or_agrees rfl ha
  refine ⟨rfl, a, ha, hasked, ?_, ?_⟩
  · apply hstops 6 (Nat.zero_le 6)
    rw [hasked]
    decide
  · apply hsame 7
    rw [hasked]

end HeapRetention
