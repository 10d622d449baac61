/-!
Progress of a long computation: signals to the caller, the log, and cancellation. A slice maps the whole
range of one stage onto a part of its parent's; a journal collects what a computation says and answers
its questions whether to stop.
-/

namespace HeapRetention

/-- A signal to whoever watches the analysis: a completed fraction, or the name of a stage. -/
inductive Signal where
  | fraction (f : Float)
  | text (s : String)
  deriving Repr

inductive LogLevel where
  | debug
  | info
  | warn
  | error
  deriving Repr, DecidableEq

structure LogRecord where
  level : LogLevel
  message : String
  deriving Repr, DecidableEq

def LogLevel.text : LogLevel → String
  | .debug => "DEBUG"
  | .info => "INFO"
  | .warn => "WARN"
  | .error => "ERROR"

def LogRecord.text (r : LogRecord) : String :=
  r.level.text ++ " " ++ r.message

/-- Moves a number into the range from zero to one; not-a-number stays. -/
def clampUnit (f : Float) : Float :=
  if f < 0.0 then 0.0 else if f > 1.0 then 1.0 else f

/-- The part of a parent's range that begins at `start` and is `portion` long. -/
structure Slice where
  start : Float
  portion : Float

def Slice.map (s : Slice) (f : Float) : Float :=
  s.start + clampUnit f * s.portion

/-- A fraction of the innermost slice as a fraction of the whole; the outermost slice comes first. -/
def Slice.mapThrough (slices : List Slice) (f : Float) : Float :=
  slices.foldr (fun s f => s.map f) f

def Signal.through (slices : List Slice) : Signal → Signal
  | .fraction f => .fraction (Slice.mapThrough slices f)
  | .text s => .text s

/-- Writes a log record whenever another tenth is complete. -/
structure StepLog where
  lastStep : Int := -1

/-- The log after a signal, and the record it writes. -/
def StepLog.receive (l : StepLog) : Signal → StepLog × Option LogRecord
  | .fraction f =>
    let step : Nat := (clampUnit f * 10.0).toUInt64.toNat
    if l.lastStep < step then (⟨step⟩, some ⟨.info, "progress: " ++ toString (step * 10) ++ "%"⟩)
    else (l, none)
  | .text s => (l, some ⟨.debug, s⟩)

inductive Notice where
  | signal (s : Signal)
  | log (r : LogRecord)
  deriving Repr

/-- What a computation has said, the latest first, and how often it asked whether to stop. The caller
lets `patience?` questions pass before it says yes; without a number it never does. -/
structure Journal where
  notices : List Notice := []
  polls : Nat := 0
  patience? : Option Nat := none

namespace Journal

def signal (j : Journal) (s : Signal) : Journal :=
  { j with notices := .signal s :: j.notices }

def log (j : Journal) (level : LogLevel) (message : String) : Journal :=
  { j with notices := .log ⟨level, message⟩ :: j.notices }

/-- Announces a stage. -/
def stage (j : Journal) (text : String) : Journal :=
  j.signal (.text text)

/-- Reports a fraction of the innermost slice. -/
def fraction (j : Journal) (slices : List Slice) (f : Float) : Journal :=
  j.signal (Signal.through slices (.fraction f))

/-- Asks whether to stop. -/
def poll (j : Journal) : Bool × Journal :=
  let stop :=
    match j.patience? with
    | some n => decide (n ≤ j.polls)
    | none => false
  (stop, { j with polls := j.polls + 1 })

/-- The signals in order. -/
def signals (j : Journal) : List Signal :=
  j.notices.reverse.filterMap fun
    | .signal s => some s
    | .log _ => none

/-- The log records in order. -/
def logs (j : Journal) : List LogRecord :=
  j.notices.reverse.filterMap fun
    | .signal _ => none
    | .log r => some r

/-- What the log shows if signals go there as well. -/
def logsWithSignals (j : Journal) : List LogRecord :=
  let (_, records) := j.notices.foldr
    (fun n ((l, records) : StepLog × List LogRecord) =>
      match n with
      | .log r => (l, r :: records)
      | .signal s =>
        let (l, r?) := l.receive s
        (l, r?.toList ++ records))
    ({}, [])
  records.reverse

end Journal

end HeapRetention
