import ShaderReport.Analyze
import ShaderReport.CommandLine
import ShaderReport.Show

/-!
# The program

What an invocation does: what it prints and logs, whether it fails, and the files that it leaves.
-/

namespace ShaderReport

/-- The result of an invocation. -/
structure Outcome where
  files : FileSystem
  printed : List String
  log : List LogRecord
  failure : Option Failure

namespace Outcome

/-- An invocation that fails and does nothing else. -/
def ofFailure (fs : FileSystem) (e : Failure) : Outcome :=
  ⟨fs, [], [], some e⟩

/-- An invocation that prints lines and does nothing else. -/
def ofLines (console : Console) (fs : FileSystem) (lines : List String) : Outcome :=
  let (printed, result) := console.printAll [] lines
  { files := fs
    printed := printed
    log := []
    failure := match result with
      | .error e => some (.console e)
      | .ok () => none }

end Outcome

/-- Where reports go: to the directory set, or else to the default one. -/
def Config.outputDir (c : Config) (user : UserDirs) : Except Failure Path :=
  match c.options.outputDir with
  | some dir => .ok dir
  | none =>
    match user.reportsDir with
    | .ok dir => .ok dir
    | .error e => .error (.cache e)

/-- Analyzes assets. -/
def runAnalyze (console : Console) (user : UserDirs) (fs : FileSystem) (named : Option Path)
    (options : Options) (assets : List Path) : Outcome :=
  match Config.resolve fs named options with
  | .error e => .ofFailure fs (.config e)
  | .ok config =>
    match config.outputDir user with
    | .error e => .ofFailure fs e
    | .ok dir =>
      let (s, result) := Analyze.analyzeAssets console config dir fs assets
      let bench := s.manager.world
      { files := bench.files
        printed := s.printed
        log := bench.log.reverse
        failure := match result with
          | .error e => some e
          | .ok _ => none }

/-- Does what an invocation asks for, and prints to a console. -/
def Invocation.runOn (i : Invocation) (console : Console) (user : UserDirs) (fs : FileSystem) :
    Outcome :=
  match i with
  | .analyze config options assets => runAnalyze console user fs config options assets
  | .showPlatforms named =>
    match Config.resolve fs named .default with
    | .error e => .ofFailure fs (.config e)
    | .ok config => .ofLines console fs config.platformLines
  | .showReportsDir =>
    match user.reportsDir with
    | .error e => .ofFailure fs (.cache e)
    | .ok dir => .ofLines console fs [dir.display]

/-- Does what an invocation asks for where every line is taken. -/
def Invocation.run (i : Invocation) (user : UserDirs) (fs : FileSystem) : Outcome :=
  i.runOn .unfailing user fs

/-- The paths that an invocation may look at or write to, as far as the given files tell. -/
def Invocation.touched (i : Invocation) (user : UserDirs) (fs : FileSystem) : List Path :=
  match i with
  | .showReportsDir => []
  | .showPlatforms named => [named.getD Config.defaultFile]
  | .analyze named options assets =>
    let file := named.getD Config.defaultFile
    match Config.resolve fs named options with
    | .error _ => [file]
    | .ok config =>
      match config.outputDir user with
      | .error _ => [file]
      | .ok dir =>
        let reports := (Analyze.distinct fs assets).1.paths.filterMap fun p =>
          (Asset.ofPath p).toOption.map fun a => reportPath dir a config.options.target
        file :: dir :: assets ++ reports

end ShaderReport
