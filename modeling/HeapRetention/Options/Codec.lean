import HeapRetention.Options
import HeapRetention.Json.Reader
import HeapRetention.Json.Value

/-!
Options as JSON. Every group and every field may be missing and then keeps its default.
-/

namespace HeapRetention

open Json

namespace TraverseOptions

def fields : List (RecordField TraverseOptions) := [
  .make "only_strong_references" false readBoolean fun o b => { o with onlyStrongReferences := b },
  .make "include_synthetic_tree_edges" false readBoolean
    fun o b => { o with includeSyntheticTreeEdges := b },
  .make "include_field_information" false readBoolean fun o b => { o with includeFieldInformation := b }]

def reader : Reader TraverseOptions :=
  readRecord "TraverseOptions" fields {}

def toJson (o : TraverseOptions) : Value :=
  .object [
    ("only_strong_references", .boolean o.onlyStrongReferences),
    ("include_synthetic_tree_edges", .boolean o.includeSyntheticTreeEdges),
    ("include_field_information", .boolean o.includeFieldInformation)]

end TraverseOptions

namespace PerClassOptions

def fields : List (RecordField PerClassOptions) := [
  .make "class_names" false (readList readString) fun o names => { o with classNames := names },
  .make "include_class_list" false readBoolean fun o b => { o with includeClassList := b }]

def reader : Reader PerClassOptions :=
  readRecord "PerClassOptions" fields {}

def toJson (o : PerClassOptions) : Value :=
  .object [
    ("class_names", .ofList .string o.classNames),
    ("include_class_list", .boolean o.includeClassList)]

end PerClassOptions

namespace HistogramOptions

def fields : List (RecordField HistogramOptions) := [
  .make "include_by_count" false readBoolean fun o b => { o with includeByCount := b },
  .make "include_by_size" false readBoolean fun o b => { o with includeBySize := b },
  .make "include_summary" false readBoolean fun o b => { o with includeSummary := b },
  .make "class_by_count_limit" false readSize fun o n => { o with classByCountLimit := n },
  .make "class_by_size_limit" false readSize fun o n => { o with classBySizeLimit := n }]

def reader : Reader HistogramOptions :=
  readRecord "HistogramOptions" fields {}

def toJson (o : HistogramOptions) : Value :=
  .object [
    ("include_by_count", .boolean o.includeByCount),
    ("include_by_size", .boolean o.includeBySize),
    ("include_summary", .boolean o.includeSummary),
    ("class_by_count_limit", .number o.classByCountLimit),
    ("class_by_size_limit", .number o.classBySizeLimit)]

end HistogramOptions

namespace DominatorOptions

def fields : List (RecordField DominatorOptions) := [
  .make "include_dominator_tree" false readBoolean fun o b => { o with includeDominatorTree := b },
  .make "min_node_size" false readWord64 fun o n => { o with minNodeSize := n },
  .make "max_depth" false readSize fun o n => { o with maxDepth := n },
  .make "max_dominator_iterations" false readSize fun o n => { o with maxDominatorIterations := n },
  .make "disk_space_threshold" false readWord64 fun o n => { o with diskSpaceThreshold := n },
  .make "head_limit" false readSize fun o n => { o with headLimit := n }]

def reader : Reader DominatorOptions :=
  readRecord "DominatorTreeOptions" fields {}

def toJson (o : DominatorOptions) : Value :=
  .object [
    ("include_dominator_tree", .boolean o.includeDominatorTree),
    ("min_node_size", .number o.minNodeSize),
    ("max_depth", .number o.maxDepth),
    ("max_dominator_iterations", .number o.maxDominatorIterations),
    ("disk_space_threshold", .number o.diskSpaceThreshold),
    ("head_limit", .number o.headLimit)]

end DominatorOptions

namespace MetaOptions

def fields : List (RecordField MetaOptions) := [
  .make "include" false readBoolean fun o b => { o with included := b }]

def reader : Reader MetaOptions :=
  readRecord "MetaInfoOptions" fields {}

def toJson (o : MetaOptions) : Value :=
  .object [("include", .boolean o.included)]

end MetaOptions

namespace AnalysisConfig

def fields : List (RecordField AnalysisConfig) := [
  .make "traverse" false TraverseOptions.reader fun c o => { c with traverse := o },
  .make "per_class" false PerClassOptions.reader fun c o => { c with perClass := o },
  .make "histogram" false HistogramOptions.reader fun c o => { c with histogram := o },
  .make "dominator" false DominatorOptions.reader fun c o => { c with dominator := o },
  .make "meta_info" false MetaOptions.reader fun c o => { c with metaInfo := o }]

def reader : Reader AnalysisConfig :=
  readRecord "AnalysisConfig" fields {}

def toJson (c : AnalysisConfig) : Value :=
  .object [
    ("traverse", c.traverse.toJson),
    ("per_class", c.perClass.toJson),
    ("histogram", c.histogram.toJson),
    ("dominator", c.dominator.toJson),
    ("meta_info", c.metaInfo.toJson)]

/-- Reads options from a JSON text. -/
def ofText (text : String) : Except ReadError AnalysisConfig :=
  readDocument reader text

end AnalysisConfig

end HeapRetention
