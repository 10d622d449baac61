/-!
The options of an analysis, in groups, with their defaults, and the changes callers usually make to them.
-/

namespace HeapRetention

/-- Which edges the traversal follows. -/
structure TraverseOptions where
  /-- Drops soft, weak and cleanup edges instead of postponing them. -/
  onlyStrongReferences : Bool := false
  includeSyntheticTreeEdges : Bool := true
  /-- Records how every claimed object was reached. -/
  includeFieldInformation : Bool := true
  deriving Repr, DecidableEq, Inhabited

/-- Classes whose reachable instances are reported. -/
structure PerClassOptions where
  classNames : List String := []
  includeClassList : Bool := true
  deriving Repr, DecidableEq, Inhabited

structure HistogramOptions where
  includeByCount : Bool := true
  includeBySize : Bool := true
  includeSummary : Bool := true
  classByCountLimit : Nat := 50
  classBySizeLimit : Nat := 30
  deriving Repr, DecidableEq, Inhabited

/-- Limits of the dominator stage and of its flame graph. -/
structure DominatorOptions where
  includeDominatorTree : Bool := true
  /-- Nodes that retain fewer bytes are left out of the flame graph. -/
  minNodeSize : Nat := 5000000
  maxDepth : Nat := 40
  maxDominatorIterations : Nat := 2000
  /-- Scratch space that has to stay free beyond the estimate. -/
  diskSpaceThreshold : Nat := 500000000
  headLimit : Nat := 5000
  deriving Repr, DecidableEq, Inhabited

structure MetaOptions where
  included : Bool := true
  deriving Repr, DecidableEq, Inhabited

structure AnalysisConfig where
  traverse : TraverseOptions := {}
  perClass : PerClassOptions := {}
  histogram : HistogramOptions := {}
  dominator : DominatorOptions := {}
  metaInfo : MetaOptions := {}
  deriving Repr, DecidableEq, Inhabited

namespace AnalysisConfig

def withOnlyStrongReferences (c : AnalysisConfig) (b : Bool) : AnalysisConfig :=
  { c with traverse := { c.traverse with onlyStrongReferences := b } }

def withSyntheticTreeEdges (c : AnalysisConfig) (b : Bool) : AnalysisConfig :=
  { c with traverse := { c.traverse with includeSyntheticTreeEdges := b } }

def withFieldInformation (c : AnalysisConfig) (b : Bool) : AnalysisConfig :=
  { c with traverse := { c.traverse with includeFieldInformation := b } }

def nominate (c : AnalysisConfig) (names : List String) : AnalysisConfig :=
  { c with perClass := { c.perClass with classNames := c.perClass.classNames ++ names } }

def withDominatorTree (c : AnalysisConfig) (b : Bool) : AnalysisConfig :=
  { c with dominator := { c.dominator with includeDominatorTree := b } }

def withMinNodeSize (c : AnalysisConfig) (bytes : Nat) : AnalysisConfig :=
  { c with dominator := { c.dominator with minNodeSize := bytes } }

def withMaxDepth (c : AnalysisConfig) (depth : Nat) : AnalysisConfig :=
  { c with dominator := { c.dominator with maxDepth := depth } }

def withMaxDominatorIterations (c : AnalysisConfig) (iterations : Nat) : AnalysisConfig :=
  { c with dominator := { c.dominator with maxDominatorIterations := iterations } }

def withDiskSpaceThreshold (c : AnalysisConfig) (bytes : Nat) : AnalysisConfig :=
  { c with dominator := { c.dominator with diskSpaceThreshold := bytes } }

def withHeadLimit (c : AnalysisConfig) (lines : Nat) : AnalysisConfig :=
  { c with dominator := { c.dominator with headLimit := lines } }

def withMetaInfo (c : AnalysisConfig) (b : Bool) : AnalysisConfig :=
  { c with metaInfo := { c.metaInfo with included := b } }

end AnalysisConfig

end HeapRetention
