import ShaderReport.FileSystem.Basic

/-!
# Resolving paths

A path is followed name by name from the root or from the current directory. A link on the way is
replaced by its target, at most forty times. All names but the last must lead to directories. What
is found at the end is an entry, or a free place in a directory.

What happens in the last place depends on what the path is followed for (`Aim`): a link there may be
followed or not, and a slash after a name there rules out that a file is written. A path that is
followed for the names it leads to is looked up anew at every name, as the absolute path of the
place reached. So its own length does not matter, but that of every such path does.
-/

namespace ShaderReport

/-- What a path is followed for: an entry behind all links, the entry in the last place whatever it
is, a place to write a file to, or the absolute path of an entry behind all links. -/
inductive Aim where
  | target
  | entry
  | writing
  | naming
  deriving DecidableEq, Repr

/-- What a path leads to. `asDirectory` says that the path ends with a slash, so that it speaks of
a directory. -/
inductive Destination where
  | found (location : Location) (entry : Entry) (asDirectory : Bool)
  | free (location : Location)
  deriving Repr

namespace FileSystem

/-- How many links a path may lead through. -/
def maxLinks : Nat := 40

/-- The greatest number of bytes of a name. -/
def maxName : Nat := 255

/-- The greatest number of bytes of a path. -/
def maxPath : Nat := 4095

/-- Whether a location cannot be looked up for the length of its last name or of its path. -/
def isOutOfReach (aim : Aim) (l : Location) : Bool :=
  l.getLast?.any (maxName < ·.length) || (aim = .naming && maxPath < l.path.bytes.length)

/-- Why no names lead on from a file. -/
def belowFile (aim : Aim) (place : Location) (names : List Bytes) : FileError :=
  match names.dropWhile (· = [dot]) with
  | n :: _ =>
    if aim = .naming ∧ n ≠ [dot, dot] ∧ maxPath < (Location.path (place ++ [n])).bytes.length then
      .nameTooLong
    else .notDirectory
  | [] => .notDirectory

/-- Follows names from a directory. -/
def walk (fs : FileSystem) (aim : Aim) (links : Nat) (place : Location) (names : List Bytes)
    (asDirectory : Bool) : Except FileError Destination :=
  match names with
  | [] => .ok (.found place .directory asDirectory)
  | n :: rest =>
    if n = [dot] then walk fs aim links place rest asDirectory
    else if n = [dot, dot] then walk fs aim links place.dropLast rest asDirectory
    else if aim = .writing ∧ rest.isEmpty ∧ asDirectory then .error .isDirectory
    else if isOutOfReach aim (place ++ [n]) then .error .nameTooLong
    else
      match fs.get? (place ++ [n]) with
      | none => if rest.isEmpty then .ok (.free (place ++ [n])) else .error .notFound
      | some .directory => walk fs aim links (place ++ [n]) rest asDirectory
      | some (.file content) =>
        if rest.isEmpty then .ok (.found (place ++ [n]) (.file content) asDirectory)
        else .error (belowFile aim (place ++ [n]) rest)
      | some (.link target) =>
        if rest.isEmpty ∧ aim = .entry then
          .ok (.found (place ++ [n]) (.link target) asDirectory)
        else
          match links with
          | 0 => .error .tooManyLinks
          | links + 1 =>
            walk fs aim links (if target.isAbsolute then [] else place) (target.names ++ rest)
              (if rest.isEmpty then asDirectory || target.endsWithSlash else asDirectory)
  termination_by (links, names.length)

/-- What a path leads to. -/
def resolve (fs : FileSystem) (aim : Aim) (p : Path) : Except FileError Destination :=
  if p.bytes.contains 0 then .error .zeroByte
  else if p.bytes.isEmpty then .error .notFound
  else if aim ≠ .naming ∧ maxPath < p.bytes.length then .error .nameTooLong
  else walk fs aim maxLinks (if p.isAbsolute then [] else fs.current) p.names p.endsWithSlash

end FileSystem

end ShaderReport
