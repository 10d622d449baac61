import HeapRetention.Histogram
import HeapRetention.Options
import HeapRetention.Text.Quantity

/-!
Two histograms side by side as text: the classes of the first one, ranked by count and by size, with the
numbers of the second one next to them.
-/

namespace HeapRetention

/-- Count and size in brackets, in columns. -/
def countAndSize (instances bytes : Nat) : String :=
  "[" ++ Text.paddedCount instances ++ "/" ++ Text.paddedSize bytes ++ "]"

/-- A line of the table. Where the second histogram names a class twice its last entry counts. -/
def tableLine (second : Histogram) (rank : Nat) (e : HistogramEntry) : String :=
  let (instances, bytes) :=
    match second.entries.reverse.find? (·.className == e.className) with
    | some f => (f.instances, f.bytes)
    | none => (0, 0)
  Text.padLeft 5 (toString rank) ++ ": " ++ countAndSize e.instances e.bytes ++ " " ++
    countAndSize instances bytes ++ " " ++ e.className ++ "\n"

/-- The first lines of the table, ranked from one. -/
def tableLines (second : Histogram) (limit : Nat) (entries : List HistogramEntry) : String :=
  String.join ((entries.take limit).mapIdx fun i e => tableLine second (i + 1) e)

def totalLine (label : String) (h : Histogram) : String :=
  "Total - " ++ Text.padLeft 10 label ++ ": " ++ Text.paddedCount h.instanceCount ++ " " ++
    Text.paddedSize h.bytesCount ++ " " ++ toString h.entries.length ++ " classes\n"

/-- The rankings that the options ask for, and the totals. -/
def histogramTable (main : Histogram) (mainLabel : String) (second : Histogram) (secondLabel : String)
    (o : HistogramOptions) : String :=
  let byCount :=
    if o.includeByCount then
      "Histogram. Top " ++ toString o.classByCountLimit ++ " by instance count [" ++ mainLabel ++ "] [" ++
        secondLabel ++ "]:\n" ++ tableLines second o.classByCountLimit main.entries
    else ""
  let bySize :=
    if o.includeBySize then
      "Top " ++ toString o.classBySizeLimit ++ " by size:\n" ++
        tableLines second o.classBySizeLimit (main.entries.mergeSort fun a b => b.bytes ≤ a.bytes)
    else ""
  byCount ++ bySize ++ totalLine mainLabel main ++ totalLine secondLabel second

end HeapRetention
