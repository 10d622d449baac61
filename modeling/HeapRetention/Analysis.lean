import HeapRetention.Report.AnalysisReport

/-!
A whole analysis: the traversal, the dominator stage on sizes not yet folded, the fold, and the report.
-/

namespace HeapRetention

/-- Everything an analysis found. -/
structure Analysis where
  run : Run
  traversal : Traversal
  dominators : DominatorOutcome
  report : AnalysisReport

/-- What an analysis works on. -/
structure AnalysisInput where
  snapshot : Snapshot
  /-- The synthetic tree, which may differ from the one in the snapshot. -/
  tree? : Option SyntheticTree
  config : AnalysisConfig
  space : ScratchSpace

namespace Analysis

/-- The dominator stage is left out if less than this would remain free. -/
def hasSpace (available estimate threshold : Nat) : Bool :=
  estimate ≤ available && threshold < available - estimate

/-- The stage if there is room for it. An error or a crash of the stage becomes its outcome; only
cancellation is passed on. -/
def dominatorOutcome (input : AnalysisInput) (run : Run) (t : Traversal) (slices : List Slice) (j : Journal) :
    Journal × Except Failure DominatorOutcome :=
  let o := run.config.dominator
  if !o.includeDominatorTree then (j, .ok (.omitted "Dominator tree not requested"))
  else
    let estimate := DominatorStage.estimate t.visitedCount t.summary.edgeCount
    match input.space.available with
    | .error e =>
      (j.log .warn ("dominator tree failed: " ++ e.describe), .ok (.failed e.describe))
    | .ok available =>
      if !hasSpace available estimate o.diskSpaceThreshold then
        (j.log .warn ("dominator tree omitted: " ++ toString available ++ " bytes available, " ++
          toString estimate ++ " estimated, " ++ toString o.diskSpaceThreshold ++ " reserved"),
          .ok (.omitted "Omitted due to low disk space"))
      else
        match DominatorStage.compute (.of run input.snapshot t) t input.space slices j with
        | (j, .ok tree) => (j, .ok (.computed tree))
        | (j, .error (.error .canceled)) => (j, .error (.error .canceled))
        | (j, .error (.error e)) =>
          (j.log .warn ("dominator tree failed: " ++ e.describe), .ok (.failed e.describe))
        | (j, .error (.crash c)) =>
          (j.log .warn ("dominator tree panicked: " ++ c.describe), .ok (.failed c.describe))

/-- The analysis of a run whose traversal is done and whose dominator stage has ended. -/
def finish (input : AnalysisInput) (run : Run) (t : Traversal) (dominators : DominatorOutcome) :
    Except Crash Analysis := do
  let graph := input.snapshot.graph
  let run := run.foldSizes t.visitedCount
  let full ← graph.tally.histogram graph.classes
  let report : AnalysisReport := {
    main := Report.mainPart run t full (t.summary.text run graph) dominators
    metaInfo := Report.metaInfo run.config .unmeasured dominators
    strong := t.strong
    nonStrong := t.nonStrong
    full? := some full }
  return { run, traversal := t, dominators, report }

/-- Analyzes a heap. The traversal takes the first half of the progress, the dominator stage the next two
fifths. -/
def analyze (input : AnalysisInput) (j : Journal) : Journal × Except Failure Analysis :=
  match Run.create input.config input.snapshot.graph.objectCount input.tree? input.space with
  | .error f => (j, .error f)
  | .ok run =>
    match run.traverse input.snapshot.graph [⟨0.0, 0.5⟩] j with
    | ⟨_, j, .error f⟩ => (j, .error f)
    | ⟨run, j, .ok t⟩ =>
      match dominatorOutcome input run t [⟨0.5, 0.4⟩] j with
      | (j, .error f) => (j, .error f)
      | (j, .ok dominators) =>
        let j := j.stage "Preparing report"
        match finish input run t dominators with
        | .error c => (j, .error (.crash c))
        | .ok analysis =>
          ((j.fraction [] 1.0).log .info ("analysis completed in " ++ Elapsed.unmeasured.text),
            .ok analysis)

end Analysis

end HeapRetention
