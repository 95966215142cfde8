import ShaderReport.Job.Countdown
import ShaderReport.Job.Source
import ShaderReport.Manager.Loop

/-!
# The bench

The world that jobs work in: the files, the jobs by their numbers, and the log. The platforms that
make jobs are offline platforms, which analyse sources, and countdown platforms.
-/

namespace ShaderReport

/-- A platform whose jobs analyse sources. -/
structure OfflinePlatform where
  target : BuildTarget
  capabilities : List Capability
  pace : Pace
  outputDir : Path
  deriving DecidableEq, Repr

/-- A platform of the standard pace that builds reports. -/
def OfflinePlatform.new (target : BuildTarget) (outputDir : Path) : OfflinePlatform :=
  ⟨target, [.buildReport], .standard, outputDir⟩

/-- A platform whose jobs count down. -/
structure CountdownPlatform where
  name : String
  capable : Bool
  steps : Nat
  answer : Option Bool
  deriving DecidableEq, Repr

/-- What makes jobs. -/
inductive Platform where
  | offline (p : OfflinePlatform)
  | countdown (p : CountdownPlatform)
  deriving DecidableEq, Repr

namespace Platform

/-- Whether a platform builds reports. -/
def isCapable : Platform → Bool
  | .offline p => p.capabilities.contains .buildReport
  | .countdown p => p.capable

end Platform

/-- A job of either platform. -/
inductive Job where
  | source (j : SourceJob)
  | countdown (j : Countdown)

namespace Job

/-- The job that a platform makes for an asset. -/
def ofPlatform (asset : Asset) : Platform → Job
  | .offline p => .source (.new asset p.target p.pace p.outputDir)
  | .countdown p => .countdown ⟨p.name, asset, p.steps, p.answer⟩

/-- What a job shows of itself. -/
def state : Job → JobState
  | .source j => j.state
  | .countdown j => j.state

/-- Advances a job by one step. -/
def tick (fs : FileSystem) : Job → Bool × Job × FileSystem × List LogRecord
  | .source j =>
    let (j, fs, log) := j.tick fs
    (j.isComplete, .source j, fs, log)
  | .countdown j =>
    let (complete, j) := j.tick
    (complete, .countdown j, fs, [])

/-- How many ticks a job takes until one of them answers that it is complete. -/
def ticksLeft (fs : FileSystem) : Job → Option Nat
  | .source j => some (j.ticksLeft fs)
  | .countdown j => j.ticksLeft

end Job

/-- The world of jobs. The log is kept newest first. -/
structure Bench where
  files : FileSystem
  jobs : List Job
  log : List LogRecord
  preparation : Except FileError Unit

namespace Bench

/-- A world without jobs. -/
def ofFiles (files : FileSystem) : Bench :=
  ⟨files, [], [], .ok ()⟩

/-- Adds a record to the log. -/
def say (b : Bench) (r : LogRecord) : Bench :=
  { b with log := r :: b.log }

/-- Lets a platform make a job. -/
def addJob (b : Bench) (p : Platform) (asset : Asset) : Bench :=
  { b with jobs := b.jobs ++ [Job.ofPlatform asset p] }

/-- Ticks a job. -/
def tickJob (b : Bench) (id : JobId) : Bool × Bench :=
  match b.jobs[id]? with
  | none => (true, b)
  | some job =>
    let (complete, job, files, log) := job.tick b.files
    (complete, { b with files := files, jobs := b.jobs.set id job, log := log.reverse ++ b.log })

/-- What a job shows of itself. -/
def state? (b : Bench) (id : JobId) : Option JobState :=
  b.jobs[id]?.map Job.state

/-- Whether a job is complete. -/
def isComplete (b : Bench) (id : JobId) : Bool :=
  (b.state? id).all (·.complete)

/-- The workshop of a bench with the given preparation. Warnings go to the log as well. -/
def workshop (prepare : Bench → Bench) : Workshop Platform Bench where
  isCapable p _ := p.isCapable
  prepare := prepare
  createShaderJob p _ path b := b.addJob p ⟨.shader, path⟩
  createComputeShaderJob p _ path b := b.addJob p ⟨.computeShader, path⟩
  createMaterialJob p _ path b := b.addJob p ⟨.material, path⟩
  tick id b := b.tickJob id
  isComplete id b := (b.isComplete id, b)
  warn w b := b.say ⟨.warning, w.message⟩
  log r b := b.say r

/-- Jobs of all kinds of assets are made alike. -/
theorem createJob_workshop (prepare : Bench → Bench) (p : Platform) (id : JobId) (asset : Asset)
    (b : Bench) : (workshop prepare).createJob p id asset b = b.addJob p asset := by
  obtain ⟨kind, path⟩ := asset
  cases kind <;> rfl

/-- A number of ticks after which the queued jobs of a manager have left the queue. -/
def ticksLeft (m : Manager Platform Bench) : Nat :=
  m.queue.foldr (fun id n => ((m.world.jobs[id]?.bind (Job.ticksLeft m.world.files)).getD 0) + n) 0

end Bench

end ShaderReport
