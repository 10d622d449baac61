import HeapRetention.Dominance.Stage

/-!
How the dominator stage of an analysis may end.
-/

namespace HeapRetention

/-- How the dominator stage ended. It does its best; only cancellation ends the whole analysis. -/
inductive DominatorOutcome where
  | computed (tree : DominatorTree)
  /-- The stage was skipped for a reason. -/
  | omitted (reason : String)
  /-- The stage failed with an error or a crash. -/
  | failed (text : String)

namespace DominatorOutcome

def tree? : DominatorOutcome → Option DominatorTree
  | .computed tree => some tree
  | _ => none

/-- The flame graph, or why there is none. -/
def sectionText : DominatorOutcome → String
  | .computed tree => tree.flameGraph
  | .omitted reason => reason ++ "\n"
  | .failed text => "Dominator tree failed: " ++ text ++ "\n"

end DominatorOutcome

end HeapRetention
