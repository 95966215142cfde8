import ShaderReport.Analysis.Scan
import ShaderReport.FileSystem.Access
import ShaderReport.Job.Pace
import ShaderReport.Job.State
import ShaderReport.Log
import ShaderReport.Report.Encode

/-!
# Source jobs

A source job builds the report of one asset in steps. Its first tick reads the source, each of the
next ones scans some lines, and the last one writes the report. A source that cannot be read still
gets a report, which says so. Later ticks change nothing.
-/

namespace ShaderReport

/-- Why a source job fails. -/
inductive JobError where
  | readSource (path : Path) (cause : FileError)
  | serialize (cause : PathError)
  | writeReport (path : Path) (cause : FileError)
  deriving DecidableEq, Repr

/-- What is said of a failed job. -/
def JobError.message : JobError → String
  | .readSource path cause => s!"failed to read '{path.display}': {cause.message}"
  | .serialize cause => s!"failed to serialize report: {cause.message}"
  | .writeReport path cause => s!"failed to write report '{path.display}': {cause.message}"

/-- How far a source job is. -/
inductive Stage where
  | load
  | scan (lines : List (List Char)) (next : Nat)
  | write (status : Status)
  | done (outcome : Except JobError Path)

/-- A job that builds the report of an asset. -/
structure SourceJob where
  asset : Asset
  target : BuildTarget
  pace : Pace
  reportPath : Path
  analysis : Analysis
  readError : Option JobError
  stage : Stage

/-- Where the report of an asset goes: into the output directory, named after the file name of the
asset and the target. -/
def reportPath (outputDir : Path) (asset : Asset) (target : BuildTarget) : Path :=
  let name := match asset.path.fileName with
    | some n => Utf8.decodeLossy n
    | none => "report"
  outputDir.join (.ofString s!"{name}.{target.name}.json")

namespace SourceJob

/-- A job before its first tick. -/
def new (asset : Asset) (target : BuildTarget) (pace : Pace) (outputDir : Path) : SourceJob where
  asset := asset
  target := target
  pace := pace
  reportPath := ShaderReport.reportPath outputDir asset target
  analysis := .empty
  readError := none
  stage := .load

/-- The path of the report, or why it was not written, once the job is complete. -/
def outcome (j : SourceJob) : Option (Except JobError Path) :=
  match j.stage with
  | .done outcome => some outcome
  | _ => none

/-- Whether the job is complete. -/
def isComplete (j : SourceJob) : Bool :=
  j.outcome.isSome

/-- The report that the job writes. -/
def report (j : SourceJob) (status : Status) : Report :=
  .ofAnalysis j.asset j.target status j.analysis

/-- Reads the source. -/
def load (j : SourceJob) (fs : FileSystem) : SourceJob × List LogRecord :=
  match fs.readText j.asset.path with
  | .ok text => ({ j with stage := .scan (Text.lines text.toList) 0 }, [])
  | .error cause =>
    let e := JobError.readSource j.asset.path cause
    ({ j with readError := some e, stage := .write (.failed e.message) },
      [⟨.warning, e.message⟩])

/-- Scans the next lines. -/
def scan (j : SourceJob) (lines : List (List Char)) (next : Nat) : SourceJob :=
  let stop := min (next + j.pace.lines) lines.length
  { j with
    analysis := j.analysis.scan ((lines.drop next).take (stop - next))
    stage := if stop = lines.length then .write .succeeded else .scan lines stop }

/-- Writes the report. -/
def writeReport (j : SourceJob) (status : Status) (fs : FileSystem) :
    Except JobError FileSystem :=
  match (j.report status).toPretty with
  | .error cause => .error (.serialize cause)
  | .ok text =>
    match fs.write j.reportPath (Utf8.encode text) with
    | .error cause => .error (.writeReport j.reportPath cause)
    | .ok fs => .ok fs

/-- Advances the job by one step. -/
def tick (j : SourceJob) (fs : FileSystem) : SourceJob × FileSystem × List LogRecord :=
  match j.stage with
  | .load =>
    let (j, log) := j.load fs
    (j, fs, log)
  | .scan lines next => (j.scan lines next, fs, [])
  | .write status =>
    match j.writeReport status fs with
    | .ok fs => ({ j with stage := .done (.ok j.reportPath) }, fs, [])
    | .error e => ({ j with stage := .done (.error e) }, fs, [⟨.error, e.message⟩])
  | .done _ => (j, fs, [])

/-- How far the job is, as a part of the whole. -/
def progress (j : SourceJob) : Single :=
  match j.stage with
  | .load => .zero
  | .scan lines next => .divide next (max lines.length 1)
  | .write _ | .done _ => .one

/-- What the job is doing. -/
def message (j : SourceJob) : String :=
  match j.stage with
  | .load => s!"loading {j.asset.display}"
  | .scan lines next => s!"scanning {j.asset.display} ({next}/{lines.length} lines)"
  | .write _ => s!"writing report of {j.asset.display}"
  | .done (.ok path) => s!"wrote report to '{path.display}'"
  | .done (.error e) => e.message

/-- Why the job did not build a usable report, if it is complete and did not. -/
def failure (j : SourceJob) : Option String :=
  match j.stage with
  | .done (.error e) => some e.message
  | .done (.ok _) => j.readError.map JobError.message
  | _ => none

/-- What the job shows of itself. -/
def state (j : SourceJob) : JobState :=
  ⟨j.isComplete, j.progress, j.message, j.failure⟩

/-- How many ticks the job still takes until it is complete, in a file system that stays as it
is. -/
def ticksLeft (j : SourceJob) (fs : FileSystem) : Nat :=
  match j.stage with
  | .load =>
    match fs.readText j.asset.path with
    | .ok text => 2 + max 1 (((Text.lines text.toList).length + j.pace.lines - 1) / j.pace.lines)
    | .error _ => 2
  | .scan lines next => 1 + max 1 ((lines.length - next + j.pace.lines - 1) / j.pace.lines)
  | .write _ => 1
  | .done _ => 0

/-- Ticks the job until it is complete, at most the given number of times: how many ticks it took,
and what they left behind. -/
def finishWithin : Nat → SourceJob → FileSystem → Nat × SourceJob × FileSystem × List LogRecord
  | 0, j, fs => (0, j, fs, [])
  | limit + 1, j, fs =>
    if j.isComplete then (0, j, fs, [])
    else
      let (j, fs, log) := j.tick fs
      let (n, j, fs, more) := finishWithin limit j fs
      (n + 1, j, fs, log ++ more)

/-- Ticks the job until it is complete. -/
def finish (j : SourceJob) (fs : FileSystem) : Nat × SourceJob × FileSystem × List LogRecord :=
  finishWithin (j.ticksLeft fs) j fs

end SourceJob

end ShaderReport
