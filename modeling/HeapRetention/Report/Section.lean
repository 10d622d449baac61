import HeapRetention.Dominance.Outcome
import HeapRetention.Report.HistogramTable
import HeapRetention.Report.ReachSummary
import HeapRetention.Text.Uppercase

/-!
The sections of the report: histograms, summary, nominated classes and the flame graph of the dominator
tree.
-/

namespace HeapRetention

namespace Report

/-- A section under its title. -/
def titled (title body : String) : String :=
  Text.sectionHeader title ++ "\n" ++ body

/-- All objects beside the strongly reachable ones, and how much nothing reaches. -/
def histograms (full : Histogram) (t : Traversal) (o : HistogramOptions) : String :=
  histogramTable full "All" t.strong "Strong-ref" o ++
    "Unreachable objects: " ++
    Text.paddedCount (full.instanceCount - (t.strong.instanceCount + t.nonStrong.instanceCount)) ++ "  " ++
    Text.paddedSize (full.bytesCount - (t.strong.bytesCount + t.nonStrong.bytesCount)) ++ "\n"

/-- The nominated classes that the heap has instances of. -/
def classList (full : Histogram) (names : List String) : String :=
  "Nominated classes:\n" ++
    String.join ((names.filterMap full.entry?).map fun e =>
      " --> [" ++ Text.shortCount e.instances ++ "/" ++ Text.shortSize e.bytes ++ "] " ++ e.className ++ "\n") ++
    "\n"

/-- An object with its folded size and the way it was reached. -/
def instanceLine (run : Run) (id : ObjectId) : String :=
  "  #" ++ toString id ++ " " ++ Text.paddedSize (run.sizeUnits id * 4) ++ " via " ++
    ((run.role? id).map Role.text).getD "root"

/-- The visited instances of a nominated class, the largest first. -/
def instances (run : Run) (name : String) (ids : List ObjectId) : String :=
  "CLASS: " ++ name ++ " (" ++ toString ids.length ++ " objects)\n" ++
    Text.headText 10 (instanceLine run) (ids.mergeSort (largerFirst run.sizeUnits)) ++ "\n"

/-- The section about the nominated classes. Classes that the heap lacks are left out. -/
def nominatedClasses (run : Run) (t : Traversal) (full : Histogram) : String :=
  let o := run.config.perClass
  (if o.includeClassList then classList full o.classNames else "") ++
    String.join (o.classNames.filterMap fun name => (t.nominated.lookup name).map (instances run name))

/-- The main part of the report. -/
def mainPart (run : Run) (t : Traversal) (full : Histogram) (summary : String)
    (dominators : DominatorOutcome) : String :=
  let c := run.config
  (if c.histogram.includeByCount || c.histogram.includeBySize then
      titled "Histogram" (histograms full t c.histogram) else "") ++
    (if c.histogram.includeSummary then titled "Heap summary" summary else "") ++
    (if c.perClass.classNames.isEmpty then "" else
      titled "Instances of each nominated class" (nominatedClasses run t full)) ++
    (if c.dominator.includeDominatorTree then
      titled "Dominator tree flame graph" dominators.sectionText else "")

/-- Timings and numbers about the dominator stage. -/
def metaInfo (config : AnalysisConfig) (elapsed : Elapsed) (dominators : DominatorOutcome) : String :=
  if config.metaInfo.included then
    "Total analysis time: " ++ elapsed.text ++ "\n" ++
      (match dominators.tree? with
      | some tree => tree.stats.text config.dominator
      | none => "")
  else ""

end Report

end HeapRetention
