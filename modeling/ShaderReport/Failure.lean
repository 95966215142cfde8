import ShaderReport.Config.Resolve
import ShaderReport.Console
import ShaderReport.OutputDir

/-!
# Failures of commands

What makes a command fail, and the messages that tell it: the failure itself first, and its causes
after it.
-/

namespace ShaderReport

/-- Why a command fails. -/
inductive Failure where
  | config (cause : ConfigError)
  | cache (cause : CacheError)
  | missingAsset (path : Path) (cause : FileError)
  | sameName (first second : Path)
  | invalidAsset (cause : InvalidAsset)
  | notStarted (asset : Path) (target : BuildTarget)
  | outputDir (dir : Path) (cause : FileError)
  | console (cause : ConsoleError)
  | reports (failed : List Path) (total : Nat)
  deriving DecidableEq, Repr

/-- What is said of a config file that is no TOML document, or does not hold a config. -/
def malformedConfig : String := "invalid TOML config"

/-- The messages of a missing config. -/
def ConfigError.messages : ConfigError → List String
  | .unreadable path cause => [s!"could not read config file '{path.display}'", cause.message]
  | .malformed path => [s!"could not parse config file '{path.display}'", malformedConfig]
  | .option cause => [cause.message]

/-- The messages of a failure. -/
def Failure.messages : Failure → List String
  | .config cause => cause.messages
  | .cache cause => [cause.message]
  | .missingAsset path cause => [s!"asset '{path.display}' does not exist", cause.message]
  | .sameName first second =>
    [s!"assets '{first.display}' and '{second.display}' would both be reported into the same file"]
  | .invalidAsset cause => [cause.message]
  | .notStarted asset target =>
    [s!"could not start building report of '{asset.display}' for platform {target.name}"]
  | .outputDir dir cause =>
    [s!"could not create output directory '{dir.display}'", cause.message]
  | .console cause => [cause.message]
  | .reports failed total =>
    let names := ", ".intercalate (failed.map Path.display)
    [s!"failed to build {failed.length} of {total} reports: {names}"]

end ShaderReport
