import ShaderReport.FileSystem.Resolve

/-!
# Files and directories by path

Reading, writing and creating at the place that a path leads to. Every change is one entry put at
one location.
-/

namespace ShaderReport

namespace FileSystem

/-- The content of the file at a path. -/
def read (fs : FileSystem) (p : Path) : Except FileError Bytes := do
  match ← fs.resolve .target p with
  | .found _ (.file content) asDirectory =>
    if asDirectory then .error .notDirectory else .ok content
  | .found _ .directory _ => .error .isDirectory
  | .found _ (.link _) _ => .error .tooManyLinks
  | .free .. => .error .notFound

/-- The text of the file at a path. -/
def readText (fs : FileSystem) (p : Path) : Except FileError String := do
  match Utf8.decode? (← fs.read p) with
  | some text => .ok text
  | none => .error .notText

/-- Where writing to a path puts a file. -/
def placeOfFile (fs : FileSystem) (p : Path) : Except FileError Location := do
  match ← fs.resolve .writing p with
  | .found location (.file _) _ => .ok location
  | .found _ .directory _ => .error .isDirectory
  | .found _ (.link _) _ => .error .tooManyLinks
  | .free location => .ok location

/-- Writes a file, in the place of one that is there. -/
def write (fs : FileSystem) (p : Path) (content : Bytes) : Except FileError FileSystem :=
  (fs.placeOfFile p).map fun l => fs.put l (.file content)

/-- Creates a directory in a free place. -/
def createDir (fs : FileSystem) (p : Path) : Except FileError FileSystem := do
  match ← fs.resolve .entry p with
  | .free location => .ok (fs.put location .directory)
  | .found .. => .error .alreadyExists

/-- Creates a link in a free place. -/
def createLink (fs : FileSystem) (p target : Path) : Except FileError FileSystem := do
  match ← fs.resolve .entry p with
  | .free location => .ok (fs.put location (.link target))
  | .found .. => .error .alreadyExists

/-- Removes what stands at a path, and all that lies below it. -/
def remove (fs : FileSystem) (p : Path) : Except FileError FileSystem := do
  match ← fs.resolve .entry p with
  | .found location _ _ => .ok (fs.removeAll location)
  | .free .. => .error .notFound

/-- Whether a path leads to a directory. -/
def isDir (fs : FileSystem) (p : Path) : Bool :=
  match fs.resolve .target p with
  | .ok (.found _ .directory _) => true
  | _ => false

/-- Whether a path leads to a file. -/
def isFile (fs : FileSystem) (p : Path) : Bool :=
  match fs.resolve .target p with
  | .ok (.found _ (.file _) asDirectory) => !asDirectory
  | _ => false

/-- The absolute path without links and dots of what a path leads to. -/
def canonicalize (fs : FileSystem) (p : Path) : Except FileError Path := do
  match ← fs.resolve .naming p with
  | .found location (.file _) asDirectory =>
    if asDirectory then .error .notDirectory else .ok (location.path)
  | .found location _ _ => .ok (location.path)
  | .free .. => .error .notFound

/-- Creates the first directory of a list. Where its place cannot be reached, the rest of the list,
which leads up from it, is created first. A directory that is there already will do. What was
created stays, even if the end is not reached. -/
def createFirst (fs : FileSystem) : List Path → FileSystem × Except FileError Unit
  | [] => (fs, .error .noParent)
  | p :: above =>
    if p.bytes.isEmpty then (fs, .ok ())
    else match fs.createDir p with
      | .ok fs => (fs, .ok ())
      | .error .notFound =>
        match createFirst fs above with
        | (fs, .error e) => (fs, .error e)
        | (fs, .ok ()) =>
          match fs.createDir p with
          | .ok fs => (fs, .ok ())
          | .error e => if fs.isDir p then (fs, .ok ()) else (fs, .error e)
      | .error e => if fs.isDir p then (fs, .ok ()) else (fs, .error e)

/-- Creates a directory and the missing ones above it. -/
def createDirs (fs : FileSystem) (p : Path) : FileSystem × Except FileError Unit :=
  fs.createFirst p.ancestors

end FileSystem

end ShaderReport
