import ShaderReport.FileSystem.Access

/-!
# Output directories

Reports go by default to a directory in the cache of the user. An output directory that is missing
is created, with the directories above it.
-/

namespace ShaderReport

/-- What is known of the user: the home and the cache directory that are set, and the home
directory of the account. -/
structure UserDirs where
  home : Option Path
  cache : Option Path
  accountHome : Option Path
  deriving DecidableEq, Repr

/-- A cache directory that is asked for and not known. -/
inductive CacheError where
  | unknown
  deriving DecidableEq, Repr

/-- What is said of an unknown cache directory. -/
def CacheError.message : CacheError → String
  | .unknown => "could not find cache directory"

namespace UserDirs

/-- The home directory. One that is set counts unless it is empty. -/
def homeDir (u : UserDirs) : Option Path :=
  match u.home with
  | some home => if home.bytes.isEmpty then u.accountHome else some home
  | none => u.accountHome

/-- The directory that reports go to by default. A cache directory that is set counts if it is
absolute. -/
def reportsDir (u : UserDirs) : Except CacheError Path :=
  match u.homeDir with
  | none => .error .unknown
  | some home =>
    let cache := match u.cache.filter Path.isAbsolute with
      | some cache => cache
      | none => home.join (.ofString ".cache")
    .ok ((cache.join (.ofString "shader-analysis")).join (.ofString "reports"))

end UserDirs

/-- Makes sure that a directory exists. Returns the file system, with what was created even where
the directory could not be. -/
def prepareOutputDir (fs : FileSystem) (dir : Path) : FileSystem × Except FileError Unit :=
  if fs.isDir dir then (fs, .ok ()) else fs.createDirs dir

end ShaderReport
