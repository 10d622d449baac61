import HeapRetention.Analysis
import HeapRetention.CommandLine
import HeapRetention.Dominance.Cards
import HeapRetention.Dominance.Fixpoint
import HeapRetention.Dominance.FlameGraph
import HeapRetention.Dominance.FlowGraph
import HeapRetention.Dominance.Incoming
import HeapRetention.Dominance.Outcome
import HeapRetention.Dominance.Postorder
import HeapRetention.Dominance.Retained
import HeapRetention.Dominance.Stage
import HeapRetention.Dominance.Stats
import HeapRetention.Dominance.Tree
import HeapRetention.Failure
import HeapRetention.Graph.Builder
import HeapRetention.Graph.ClassTable
import HeapRetention.Graph.Codec
import HeapRetention.Graph.Cursor
import HeapRetention.Graph.HeapGraph
import HeapRetention.Graph.Record
import HeapRetention.Graph.SyntheticTree
import HeapRetention.Histogram
import HeapRetention.Json.Lexer
import HeapRetention.Json.Numeral
import HeapRetention.Json.ReadError
import HeapRetention.Json.Reader
import HeapRetention.Json.Skip
import HeapRetention.Json.Value
import HeapRetention.Main
import HeapRetention.Numbers
import HeapRetention.Options
import HeapRetention.Options.Codec
import HeapRetention.Progress
import HeapRetention.Reach.Phase
import HeapRetention.Reach.Role
import HeapRetention.Reach.Run
import HeapRetention.Reach.Traversal
import HeapRetention.Reach.Walk
import HeapRetention.Report.AnalysisReport
import HeapRetention.Report.HistogramTable
import HeapRetention.Report.ReachSummary
import HeapRetention.Report.Section
import HeapRetention.Store.FileTree
import HeapRetention.Store.Scratch
import HeapRetention.Store.Slots
import HeapRetention.Store.Word
import HeapRetention.Text.Decimal
import HeapRetention.Text.Elapsed
import HeapRetention.Text.HeadBuffer
import HeapRetention.Text.PrintableTable
import HeapRetention.Text.Quantity
import HeapRetention.Text.Quoted
import HeapRetention.Text.Uppercase
import HeapRetention.Text.UppercaseTable
import HeapRetention.TreeHost
import HeapRetention.Proofs.Results
import HeapRetention.Proofs.IdomChains
import HeapRetention.Proofs.Trails
import HeapRetention.Proofs.IdomCandidates
import HeapRetention.Proofs.IdomPasses
import HeapRetention.Proofs.CardBits
import HeapRetention.Proofs.CardScan
import HeapRetention.Proofs.VisitSchedule
import HeapRetention.Proofs.IdomHistory
import HeapRetention.Proofs.DepthFirst
import HeapRetention.Proofs.EdgeLists
import HeapRetention.Proofs.PhaseReach
import HeapRetention.Proofs.RetainedSums
import HeapRetention.Proofs.WalkEdges
import HeapRetention.Proofs.WalkClaims
import HeapRetention.Proofs.WalkState
import HeapRetention.Proofs.WalkPhases
import HeapRetention.Proofs.WalkRun
import HeapRetention.Proofs.PhaseLayers
import HeapRetention.Proofs.DominatorsMet
import HeapRetention.Proofs.IdomsExact
import HeapRetention.Proofs.StrongNodes
import HeapRetention.Proofs.TreeShape
import HeapRetention.Proofs.SubtreeSums
import HeapRetention.Proofs.SpanningForest
import HeapRetention.Proofs.WalkEnds
import HeapRetention.Proofs.TallyTotals
import HeapRetention.Proofs.WalkComparison
import HeapRetention.Proofs.Cancellation
import HeapRetention.Proofs.StageRequests
import HeapRetention.Proofs.StageIsolation
import HeapRetention.Proofs.RoundedDoubles
import HeapRetention.Proofs.ShortQuantities
import HeapRetention.Proofs.HeapConservation
import HeapRetention.Proofs.ClaimStories
import HeapRetention.Proofs.FirstClaims
import HeapRetention.Proofs.EdgeBudget
import HeapRetention.Proofs.SearchBudget
import HeapRetention.Proofs.ListsSuffice
import HeapRetention.Proofs.RetreatingEdges
import HeapRetention.Proofs.ListAgreement
import HeapRetention.Proofs.SpaceGuard
import HeapRetention.Proofs.WrittenText
import HeapRetention.Proofs.ReadBack
import HeapRetention.Proofs.RecordText
import HeapRetention.Proofs.GraphText
import HeapRetention.Proofs.FoldedSizes
import HeapRetention.Proofs.ShortestChains
import HeapRetention.Proofs.ChangedIdoms
import HeapRetention.Proofs.PackedEdges
import HeapRetention.Proofs.WalkTurns
import HeapRetention.Proofs.AcyclicHeaps
import HeapRetention.Proofs.NominatedInstances
import HeapRetention.Proofs.Lineages
import HeapRetention.Proofs.FlameText
import HeapRetention.Proofs.DirtyCards
import HeapRetention.Proofs.MergedHistograms
import HeapRetention.Proofs.SkippedValues
import HeapRetention.Proofs.PartialOptions
import HeapRetention.Proofs.PassAccounts
import HeapRetention.Proofs.PartialChains
