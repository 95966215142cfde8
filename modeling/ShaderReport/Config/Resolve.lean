import ShaderReport.Config.File
import ShaderReport.FileSystem.Access

/-!
# The config of a run

The options of the config file are overridden by those of the command line. Without a declaration of
its own the only target is the one used by default. A pace declared for a target goes before the
pace among the options.
-/

namespace ShaderReport

/-- The config of a run. There is a declaration at least. -/
structure Config where
  options : Options
  platforms : List (BuildTarget × PlatformConfig)
  deriving DecidableEq, Repr

/-- Why there is no config. -/
inductive ConfigError where
  | unreadable (path : Path) (cause : FileError)
  | malformed (path : Path)
  | option (cause : MergeError)
  deriving DecidableEq, Repr

namespace Config

/-- The config file looked for if none is named. -/
def defaultFile : Path :=
  .ofString "shader-analysis.toml"

/-- The config file at a path. -/
def load (fs : FileSystem) (path : Path) : Except ConfigError ConfigFile :=
  match fs.readText path with
  | .error cause => .error (.unreadable path cause)
  | .ok text =>
    match ConfigFile.parse? text with
    | none => .error (.malformed path)
    | some file => .ok file

/-- The config of a file and the options of a command line. -/
def ofFile (file : ConfigFile) (options : Options) : Except ConfigError Config :=
  match file.options.merge options with
  | .error cause => .error (.option cause)
  | .ok options =>
    .ok ⟨options,
      if file.platforms.isEmpty then [(.offline, .default)] else file.platforms⟩

/-- The config of the named file, or of the one looked for if there is such a file, and the options
of a command line. -/
def resolve (fs : FileSystem) (named : Option Path) (options : Options) :
    Except ConfigError Config := do
  let file ← match named with
    | some path => load fs path
    | none => if fs.isFile defaultFile then load fs defaultFile else .ok .default
  ofFile file options

/-- The pace of a target. -/
def paceOf (c : Config) (target : BuildTarget) : Pace :=
  ((c.platforms.lookup target).bind (·.pace)).getD c.options.pace

end Config

end ShaderReport
