import ShaderReport.Program

/-!
# The command line program

Takes a picture of the files that an invocation touches, lets the invocation run on the picture,
and brings the files that it changed back to the disk.
-/

namespace ShaderReport.Main

/-- The path of a location as the system takes it. -/
def systemPath (l : Location) : String :=
  l.path.display

/-- The location that a path of the system names. -/
def locationOf (path : String) : Location :=
  (Path.ofString path).names

/-- Adds an entry, unless there is one at its location. -/
def learn (fs : FileSystem) (l : Location) (e : Entry) : FileSystem :=
  if (fs.get? l).isSome then fs else fs.put l e

/-- Adds the directories that lead to a location. -/
def learnAbove (fs : FileSystem) (l : Location) : FileSystem :=
  (List.range l.length).foldl (fun fs n => if n = 0 then fs else learn fs (l.take n) .directory) fs

/-- Adds what stands at a location that is not a link. -/
def learnEntry (fs : FileSystem) (l : Location) : IO FileSystem := do
  let path ← IO.FS.realPath (systemPath l)
  if ← path.isDir then
    return learn (learnAbove fs l) l .directory
  else
    return learn (learnAbove fs l) l (.file (← IO.FS.readBinFile path).toList)

/-- Adds all that the names of a path lead through from a location. -/
def learnNames (fs : FileSystem) (place : Location) : List Bytes → IO FileSystem
  | [] => return fs
  | n :: rest => do
    if n = [dot] then learnNames fs place rest
    else if n = [dot, dot] then learnNames fs place.dropLast rest
    else
      let l := place ++ [n]
      match ← (IO.FS.realPath (systemPath l)).toBaseIO with
      | .error _ => return fs
      | .ok path =>
        let real := locationOf path.toString
        let fs ← learnEntry fs real
        let fs := if real = l then fs
          else ((learnAbove fs l).createLink l.path real.path).toOption.getD fs
        learnNames fs real rest

/-- Adds all that a path leads through. -/
def learnPath (fs : FileSystem) (p : Path) : IO FileSystem :=
  learnNames fs (if p.isAbsolute then [] else fs.current) p.names

/-- A picture of the files that an invocation touches. The config file tells of an output directory,
and the assets of the names of their reports, so it takes three looks. -/
def takePicture (i : Invocation) (user : UserDirs) : IO FileSystem := do
  let here := locationOf (← IO.FS.realPath (← IO.currentDir)).toString
  let mut fs ← learnEntry { FileSystem.empty with current := here } here
  for _ in [0, 1, 2] do
    for p in i.touched user fs do
      fs ← learnPath fs p
  return fs

/-- Brings the entries that are new or changed to the disk, directories above before those below. -/
def bringBack (before after : FileSystem) : IO Unit := do
  let changed := after.entries.filter fun (l, e) => before.get? l ≠ some e
  for (l, e) in changed.mergeSort fun a b => a.1.length ≤ b.1.length do
    match e with
    | .directory => IO.FS.createDir (systemPath l)
    | .file content => IO.FS.writeBinFile (systemPath l) ⟨content.toArray⟩
    | .link _ => pure ()

/-- What is known of the user from the environment. -/
def userDirs : IO UserDirs := do
  let home ← IO.getEnv "HOME"
  let cache ← IO.getEnv "XDG_CACHE_HOME"
  return ⟨home.map .ofString, cache.map .ofString, none⟩

/-- The exit code of a command line that is no invocation. -/
def usageCode : UsageError → UInt32
  | .helpAsked | .versionAsked => 0
  | _ => 2

/-- Prints lines, up to the first that the system refuses. Answers with a console that does the
same. -/
def printLines (printed : Nat) : List String → IO Console
  | [] => return .unfailing
  | line :: lines => do
    let print : IO Unit := do
      IO.println line
      (← IO.getStdout).flush
    match ← print.toBaseIO with
    | .ok () => printLines (printed + 1) lines
    | .error cause => return .upTo printed ⟨toString cause⟩

/-- Runs an invocation, prints and logs what it says, and answers with the exit code. Where a line
is refused, only what was done up to there is brought to the disk. -/
def runOnDisk (i : Invocation) : IO UInt32 := do
  let user ← userDirs
  let before ← takePicture i user
  let console ← printLines 0 (i.run user before).printed
  let outcome := i.runOn console user before
  bringBack before outcome.files
  for record in outcome.log do
    IO.eprintln record.line
  match outcome.failure with
  | none => return 0
  | some failure =>
    let text := ": ".intercalate failure.messages
    IO.eprintln s!"Error: {text}"
    return 1

end ShaderReport.Main

open ShaderReport in
/-- Analyzes shaders and materials, or shows the config. -/
def main (args : List String) : IO UInt32 := do
  match CommandLine.parse (args.map Utf8.encode) with
  | .error e =>
    IO.eprintln "usage: analyze [OPTIONS] <ASSETS>..., show platforms, show reports-dir"
    return Main.usageCode e
  | .ok invocation => Main.runOnDisk invocation
