import HeapRetention.Analysis
import HeapRetention.Graph.Codec
import HeapRetention.Numbers
import HeapRetention.Options.Codec

/-!
The command line: the arguments of the program, what they ask for, and the program itself over any host
that reads and writes files for it.
-/

namespace HeapRetention

/-- The options that take no value. -/
inductive Flag where
  | onlyStrong
  | noSyntheticTree
  | noDominators
  | json
  deriving Repr, DecidableEq

/-- The options that take a value. -/
inductive ValueOption where
  | config
  | nominate
  | minNodeSize
  | maxDepth
  | lineLimit
  | maxIterations
  | diskSpaceThreshold
  | scratchDirectory
  | flameGraph
  deriving Repr, DecidableEq

def flagNames : List (String × Flag) := [
  ("only-strong", .onlyStrong),
  ("no-synthetic-tree", .noSyntheticTree),
  ("no-dominators", .noDominators),
  ("json", .json)]

def valueOptionNames : List (String × ValueOption) := [
  ("config", .config),
  ("nominate", .nominate),
  ("min-node-size", .minNodeSize),
  ("max-depth", .maxDepth),
  ("line-limit", .lineLimit),
  ("max-iterations", .maxIterations),
  ("disk-space-threshold", .diskSpaceThreshold),
  ("mmap-dir", .scratchDirectory),
  ("flame-graph", .flameGraph)]

/-- A number of at most 64 bits in decimal digits, with or without a plus sign. -/
def decimalWord? (text : String) : Option Nat :=
  let digits := match text.toList with
    | '+' :: rest => rest
    | cs => cs
  if digits.isEmpty || !digits.all Char.isDigit then none
  else
    let n := digits.foldl (fun n c => n * 10 + (c.toNat - '0'.toNat)) 0
    if n ≤ longMax then some n else none

/-- Whether an option takes the value. Paths are not empty. -/
def ValueOption.accepts (o : ValueOption) (value : String) : Bool :=
  match o with
  | .nominate => true
  | .config | .scratchDirectory | .flameGraph => !value.isEmpty
  | .minNodeSize | .maxDepth | .lineLimit | .maxIterations | .diskSpaceThreshold =>
    (decimalWord? value).isSome

/-- The arguments of the program. -/
structure Arguments where
  /-- The file of the heap graph; there is exactly one. -/
  graph? : Option String := none
  flags : List Flag := []
  values : List (ValueOption × String) := []
  deriving Repr, DecidableEq

/-- What the arguments ask for. -/
inductive Request where
  | run (a : Arguments)
  | help
  | version
  | misuse
  deriving Repr, DecidableEq

namespace Arguments

/-- Adds the file of the heap graph. -/
def addGraph (a : Arguments) (path : String) : Option Arguments :=
  if a.graph?.isSome || path.isEmpty then none else some { a with graph? := some path }

/-- Adds a flag that was not given before. -/
def addFlag (a : Arguments) (f : Flag) : Option Arguments :=
  if a.flags.contains f then none else some { a with flags := a.flags ++ [f] }

/-- Adds a value; only classes may be nominated more than once. -/
def addValue (a : Arguments) (o : ValueOption) (value : String) : Option Arguments :=
  if !o.accepts value || (o ≠ .nominate && (a.values.lookup o).isSome) then none
  else some { a with values := a.values ++ [(o, value)] }

def value? (a : Arguments) (o : ValueOption) : Option String :=
  a.values.lookup o

def number? (a : Arguments) (o : ValueOption) : Option Nat :=
  (a.value? o).bind decimalWord?

def nominated (a : Arguments) : List String :=
  (a.values.filter (·.1 = .nominate)).map Prod.snd

def has (a : Arguments) (f : Flag) : Bool :=
  a.flags.contains f

end Arguments

/-- What a single argument stands for. -/
inductive Token where
  | positional (path : String)
  | flag (f : Flag)
  | value (o : ValueOption) (text : String)
  /-- An option whose value is the next argument. -/
  | awaiting (o : ValueOption)
  /-- Everything behind it is positional. -/
  | positionalsOnly
  | help
  | version
  | unknown
  deriving Repr, DecidableEq

namespace Token

/-- An option by its long name, with the value behind an equals sign. -/
def ofLong (name : String) (value? : Option String) : Token :=
  match flagNames.lookup name, valueOptionNames.lookup name, value? with
  | some f, _, none => .flag f
  | none, some o, some text => .value o text
  | none, some o, none => .awaiting o
  | none, none, none => if name = "help" then .help else if name = "version" then .version else .unknown
  | _, _, _ => .unknown

def ofArgument (arg : String) : Token :=
  match arg.toList with
  | ['-'] => .positional arg
  | ['-', '-'] => .positionalsOnly
  | '-' :: '-' :: text =>
    let name := String.ofList (text.takeWhile (· ≠ '='))
    match text.dropWhile (· ≠ '=') with
    | [] => ofLong name none
    | _ :: rest => ofLong name (some (String.ofList rest))
  | '-' :: 'h' :: _ => .help
  | '-' :: 'V' :: _ => .version
  | '-' :: _ => .unknown
  | _ => .positional arg

end Token

namespace Request

/-- Whether an argument can be the value of the option in front of it. -/
def canBeValue (arg : String) : Bool :=
  arg = "-" || arg.toList.head? ≠ some '-'

/-- The request of arguments that are complete. -/
def ofComplete (a : Arguments) : Request :=
  if a.graph?.isSome then .run a else .misuse

/-- Positional arguments only. -/
def ofPositionals : Arguments → List String → Request
  | a, [] => ofComplete a
  | a, path :: rest =>
    match a.addGraph path with
    | some a => ofPositionals a rest
    | none => .misuse

/-- Reads the arguments from left to right. The first one that is wrong, or that asks for help, decides. -/
def ofArguments : Arguments → List String → Request
  | a, [] => ofComplete a
  | a, arg :: rest =>
    match Token.ofArgument arg with
    | .positional path =>
      match a.addGraph path with
      | some a => ofArguments a rest
      | none => .misuse
    | .flag f =>
      match a.addFlag f with
      | some a => ofArguments a rest
      | none => .misuse
    | .value o text =>
      match a.addValue o text with
      | some a => ofArguments a rest
      | none => .misuse
    | .awaiting o =>
      match rest with
      | [] => .misuse
      | text :: rest =>
        match if canBeValue text then a.addValue o text else none with
        | some a => ofArguments a rest
        | none => .misuse
    | .positionalsOnly => ofPositionals a rest
    | .help => .help
    | .version => .version
    | .unknown => .misuse

end Request

/-- The options of an analysis after the arguments have changed them. -/
def Arguments.adjust (a : Arguments) (c : AnalysisConfig) : AnalysisConfig :=
  let set (x : Option Nat) (f : AnalysisConfig → Nat → AnalysisConfig) (c : AnalysisConfig) :=
    match x with
    | some n => f c n
    | none => c
  let c := if a.has .onlyStrong then c.withOnlyStrongReferences true else c
  let c := if a.has .noSyntheticTree then c.withSyntheticTreeEdges false else c
  let c := if a.has .noDominators then c.withDominatorTree false else c
  let c := c.nominate a.nominated
  let c := set (a.number? .minNodeSize) .withMinNodeSize c
  let c := set (a.number? .maxDepth) .withMaxDepth c
  let c := set (a.number? .lineLimit) .withHeadLimit c
  let c := set (a.number? .maxIterations) .withMaxDominatorIterations c
  set (a.number? .diskSpaceThreshold) .withDiskSpaceThreshold c

/-- What the program needs from its surroundings. -/
structure Host (m : Type → Type) where
  /-- The text of a file. -/
  read : String → m (Except AnalysisError String)
  write : String → String → m (Except IoError Unit)
  /-- Scratch space under a directory, or in memory. -/
  scratch : Option String → m (Except IoError ScratchSpace)
  print : String → m Unit
  log : LogRecord → m Unit

namespace Program

variable {m : Type → Type} [Monad m]

/-- Reads a file and makes a value of its text. -/
def load (host : Host m) (path : String) (parse : String → Except AnalysisError α) :
    ExceptT AnalysisError m α := do
  parse (← host.read path)

/-- The options of a file, if there is one, as the arguments change them. -/
def config (host : Host m) (a : Arguments) : ExceptT AnalysisError m AnalysisConfig := do
  match a.value? .config with
  | none => return a.adjust {}
  | some path => return a.adjust (← load host path fun text => (AnalysisConfig.ofText text).mapError .json)

/-- The graph that a text describes. -/
def graphOfText (text : String) : Except AnalysisError HeapGraph := do
  HeapGraph.ofData (← (HeapGraphData.ofText text).mapError .json)

/-- Analyzes a heap graph and prints the report. A crash is none of the errors. -/
def analyze (host : Host m) (a : Arguments) : ExceptT AnalysisError m (Option Crash) := do
  let config ← config host a
  let path := a.graph?.getD ""
  let graph ← load host path graphOfText
  host.log ⟨.info, "loaded " ++ toString graph.objectCount ++ " objects from " ++ path⟩
  let space ← ExceptT.mk (Except.mapError .io <$> host.scratch (a.value? .scratchDirectory))
  let input : AnalysisInput := {
    snapshot := { graph := { graph with tree? := none } }
    tree? := graph.tree?
    config
    space }
  let (journal, result) := Analysis.analyze input {}
  journal.logsWithSignals.forM fun r => (host.log r : m Unit)
  match result with
  | .error (.crash c) => return some c
  | .error (.error e) => throw e
  | .ok analysis =>
    match a.value? .flameGraph, analysis.dominators.tree? with
    | some file, some tree =>
      ExceptT.mk (Except.mapError .io <$> host.write file tree.flameGraph)
      host.log ⟨.info, "flame graph written to " ++ file⟩
    | _, _ => pure ()
    host.print (if a.has .json then analysis.report.jsonText ++ "\n" else analysis.report.text)
    return none

/-- What the program prints about itself. -/
def versionText : String :=
  "heapscope 0.1.0\n"

def helpText : String :=
  "Reachability and dominator analysis of a heap graph snapshot\n\n" ++
    "Usage: heapscope [OPTIONS] <GRAPH>\n\nOptions:\n" ++
    String.join (flagNames.map fun p => "  --" ++ p.1 ++ "\n") ++
    String.join (valueOptionNames.map fun p => "  --" ++ p.1 ++ " <VALUE>\n") ++
    "  -h, --help\n  -V, --version\n"

/-- Runs the program with its arguments and returns its exit code. -/
def run (host : Host m) (args : List String) : m Nat := do
  match Request.ofArguments {} args with
  | .help => host.print helpText; return 0
  | .version => host.print versionText; return 0
  | .misuse => return 2
  | .run a =>
    match ← analyze host a with
    | .ok none => return 0
    | .ok (some _) => return 101
    | .error e => host.log ⟨.error, e.describe⟩; return 1

end Program

end HeapRetention
