import HeapRetention.Reach.Traversal
import HeapRetention.Text.HeadBuffer
import HeapRetention.Text.Quantity
import Std.Data.TreeSet

/-!
The summary of a traversal as text.
-/

namespace HeapRetention

/-- A size in units as text. -/
def shortUnits (units : Nat) : String :=
  Text.shortSize (units * 4)

namespace TraversalSummary

/-- How the traversal itself went. -/
def measuredLines (s : TraversalSummary) : List String := [
  "Analysis completed! Visited instances: " ++ toString s.visitedInstances ++ ", time: " ++ s.elapsed.text,
  "Update sizes time: " ++ s.foldElapsed.text,
  "Leaves found: " ++ toString s.leaves]

def sizeLines (s : TraversalSummary) (classCount : Nat) : List String := [
  "Class count: " ++ toString classCount,
  "Finalizable size: " ++ Text.shortSize s.finalizableBytes,
  "Soft-reachable size: " ++ Text.shortSize s.softBytes,
  "Weak-reachable size: " ++ Text.shortSize s.weakBytes,
  "Reachable only from synthetic tree: " ++ toString s.syntheticOnly.length]

/-- The objects that only the synthetic tree reaches and that are no children of another of them. -/
def topmost (s : TraversalSummary) (tree? : Option SyntheticTree) : List ObjectId :=
  match tree? with
  | none => s.syntheticOnly
  | some tree =>
    let nested := Std.TreeSet.ofList (s.syntheticOnly.flatMap tree.children)
    s.syntheticOnly.filter fun id => !nested.contains id

/-- The section about the whole heap. Sizes are those of the run. -/
def text (s : TraversalSummary) (run : Run) (graph : HeapGraph) : String :=
  let lines := (if run.config.metaInfo.included then s.measuredLines else []) ++ s.sizeLines graph.classes.size
  let object (id : ObjectId) : String :=
    " * " ++ (graph.className? id).getD "<unknown>" ++ " (" ++ shortUnits (run.sizeUnits id) ++ ")"
  String.join (lines.map (· ++ "\n")) ++ Text.headText 10 object (s.topmost run.tree?)

end TraversalSummary

end HeapRetention
