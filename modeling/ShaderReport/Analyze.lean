import ShaderReport.Bench
import ShaderReport.Failure

/-!
# Analyzing assets

The assets given are made distinct first: an asset given twice is skipped, and two assets of one
name, which would share a report, are refused before anything is built. Then the report of each is
built, one after the other; a report that fails does not keep the next ones from being built, but a
line that the console refuses does.
-/

namespace ShaderReport

namespace Analyze

/-! ### Distinct assets -/

/-- The distinct assets found so far, and the arguments skipped, both in order. -/
structure Distinct where
  paths : List Path
  skipped : List Path
  deriving DecidableEq, Repr

/-- The file name of a path, empty if it has none. -/
def nameOf (p : Path) : Bytes :=
  p.fileName.getD []

/-- Adds an argument to the distinct assets. -/
def Distinct.add (fs : FileSystem) (d : Distinct) (argument : Path) : Except Failure Distinct :=
  match fs.canonicalize argument with
  | .error cause => .error (.missingAsset argument cause)
  | .ok path =>
    match d.paths.find? (nameOf · = nameOf path) with
    | none => .ok { d with paths := d.paths ++ [path] }
    | some previous =>
      if previous = path then .ok { d with skipped := d.skipped ++ [argument] }
      else .error (.sameName previous path)

/-- Adds arguments in order. Returns what was found before the first failure along with it. -/
def Distinct.addAll (fs : FileSystem) : Distinct → List Path → Distinct × Except Failure Unit
  | d, [] => (d, .ok ())
  | d, argument :: arguments =>
    match d.add fs argument with
    | .error e => (d, .error e)
    | .ok d => addAll fs d arguments

/-- The distinct assets among arguments. -/
def distinct (fs : FileSystem) (arguments : List Path) : Distinct × Except Failure Unit :=
  Distinct.addAll fs ⟨[], []⟩ arguments

/-- The warning of a skipped argument. -/
def skipping (argument : Path) : LogRecord :=
  ⟨.warning, s!"skipping repeated asset '{argument.display}'"⟩

/-! ### Building reports -/

/-- A run in progress: the manager, the lines printed so far, the jobs of the assets so far, and the
assets that failed. -/
structure Session where
  manager : Manager Platform Bench
  printed : List String
  jobs : List JobId
  failed : List Path

/-- Prints a line. -/
def Session.print (s : Session) (console : Console) (line : String) :
    Session × Except Failure Unit :=
  match console.print s.printed line with
  | .error cause => (s, .error (.console cause))
  | .ok printed => ({ s with printed := printed }, .ok ())

/-- Records how the job of an asset ended. A failure is logged. -/
def Session.conclude (s : Session) (path : Path) (job : JobId) (failure : Option String) :
    Session :=
  match failure with
  | none => { s with jobs := s.jobs ++ [job] }
  | some text =>
    { s with
      manager := { s.manager with world := s.manager.world.say ⟨.error, text⟩ }
      jobs := s.jobs ++ [job]
      failed := s.failed ++ [path] }

/-- The workshop of a run, whose preparation creates the output directory. -/
def workshop (outputDir : Path) : Workshop Platform Bench :=
  Bench.workshop fun b =>
    let (files, preparation) := prepareOutputDir b.files outputDir
    { b with files := files, preparation := preparation }

/-- A manager with a platform for each declared target. -/
def registered (config : Config) (outputDir : Path) (bench : Bench) : Manager Platform Bench :=
  config.platforms.foldl (fun m (target, platform) =>
    m.register target
      (.offline ⟨target, platform.capabilities, config.paceOf target, outputDir⟩)) (.new bench)

/-- A run before its first asset. The arguments that were skipped have been warned of. -/
def opening (config : Config) (outputDir : Path) (fs : FileSystem) (d : Distinct) : Session :=
  ⟨registered config outputDir ((d.skipped.map skipping).foldl Bench.say (.ofFiles fs)), [], [], []⟩

/-- Runs the job of an asset until no job is queued. -/
def runJob (console : Console) (outputDir : Path) (s : Session) (path : Path) (job : JobId) :
    Session × Except Failure Unit :=
  let (cycles, m) := s.manager.runUntilIdle (workshop outputDir) (Bench.ticksLeft s.manager)
  let state := (m.world.state? job).getD (.plain true)
  match { s with manager := m }.print console s!"{state.message} ({cycles} ticks)" with
  | (s, .error e) => (s, .error e)
  | (s, .ok ()) => (s.conclude path job state.failure, .ok ())

/-- Builds the report of one asset. -/
def build (console : Console) (outputDir : Path) (target : BuildTarget) (s : Session)
    (path : Path) : Session × Except Failure Unit :=
  let (answer, m) := s.manager.submitPath (workshop outputDir) path target
  let s := { s with manager := m }
  match answer with
  | .error cause => (s, .error (.invalidAsset cause))
  | .ok none => (s, .error (.notStarted path target))
  | .ok (some job) =>
    match m.world.preparation with
    | .error cause => (s, .error (.outputDir outputDir cause))
    | .ok () =>
      match s.print console s!"Analysing '{path.display}' for {target.name}..." with
      | (s, .error e) => (s, .error e)
      | (s, .ok ()) => runJob console outputDir s path job

/-- Builds the reports of assets in order, up to the first failure that is not the report's own. -/
def buildAll (console : Console) (outputDir : Path) (target : BuildTarget) :
    Session → List Path → Session × Except Failure Unit
  | s, [] => (s, .ok ())
  | s, path :: paths =>
    match build console outputDir target s path with
    | (s, .error e) => (s, .error e)
    | (s, .ok ()) => buildAll console outputDir target s paths

/-- Builds the reports of the distinct ones among assets. Succeeds with the jobs if none of them
failed. -/
def analyzeAssets (console : Console) (config : Config) (outputDir : Path) (fs : FileSystem)
    (arguments : List Path) : Session × Except Failure (List JobId) :=
  let (d, found) := distinct fs arguments
  let s := opening config outputDir fs d
  match found with
  | .error e => (s, .error e)
  | .ok () =>
    match buildAll console outputDir config.options.target s d.paths with
    | (s, .error e) => (s, .error e)
    | (s, .ok ()) =>
      if s.failed.isEmpty then (s, .ok s.jobs)
      else (s, .error (.reports s.failed s.jobs.length))

end Analyze

end ShaderReport
