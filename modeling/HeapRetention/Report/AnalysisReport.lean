import HeapRetention.Report.Section

/-!
The report of an analysis as text and as JSON.
-/

namespace HeapRetention

/-- The report of one analysis. -/
structure AnalysisReport where
  main : String
  metaInfo : String
  strong : Histogram
  nonStrong : Histogram
  full? : Option Histogram
  deriving Repr, DecidableEq

namespace AnalysisReport

def toJson (r : AnalysisReport) : Json.Value :=
  .object ([
    ("main_report", .string r.main),
    ("meta_info", .string r.metaInfo),
    ("strong_histogram", r.strong.toJson),
    ("non_strong_histogram", r.nonStrong.toJson)] ++
    r.full?.toList.map fun h => ("full_histogram", h.toJson))

/-- The report as indented JSON. -/
def jsonText (r : AnalysisReport) : String :=
  r.toJson.renderPretty

/-- The report as plain text. -/
def text (r : AnalysisReport) : String :=
  if r.metaInfo.isEmpty then r.main else r.main ++ Report.titled "Report metadata" r.metaInfo

end AnalysisReport

end HeapRetention
