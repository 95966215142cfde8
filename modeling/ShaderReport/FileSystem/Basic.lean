import ShaderReport.Path

/-!
# File systems

A file system holds files, directories and symbolic links at locations; a location is the list of
the names that lead to it from the root, which is a directory always. Writing at one location leaves
every other one as it was.
-/

namespace ShaderReport

/-- The names that lead from the root to an entry. -/
abbrev Location := List Bytes

/-- The absolute path of a location. -/
def Location.path (l : Location) : Path :=
  if l.isEmpty then ⟨[slash]⟩ else ⟨l.flatMap (slash :: ·)⟩

/-- What stands at a location. -/
inductive Entry where
  | file (content : Bytes)
  | directory
  | link (target : Path)
  deriving DecidableEq, Repr

/-- Why an operation on files fails. -/
inductive FileError where
  | notFound
  | alreadyExists
  | notDirectory
  | isDirectory
  | nameTooLong
  | tooManyLinks
  | zeroByte
  | notText
  | noParent
  deriving DecidableEq, Repr

/-- What is said of a failed operation on files. -/
def FileError.message : FileError → String
  | .notFound => "No such file or directory (os error 2)"
  | .alreadyExists => "File exists (os error 17)"
  | .notDirectory => "Not a directory (os error 20)"
  | .isDirectory => "Is a directory (os error 21)"
  | .nameTooLong => "File name too long (os error 36)"
  | .tooManyLinks => "Too many levels of symbolic links (os error 40)"
  | .zeroByte => "file name contained an unexpected NUL byte"
  | .notText => "stream did not contain valid UTF-8"
  | .noParent => "failed to create whole tree"

/-- The entries of a file system, and the directory that relative paths start from. -/
structure FileSystem where
  entries : List (Location × Entry)
  current : Location
  deriving Repr, Inhabited

namespace FileSystem

/-- A file system without any entries. -/
def empty : FileSystem :=
  ⟨[], []⟩

/-- The entry at a location. -/
def get? (fs : FileSystem) (l : Location) : Option Entry :=
  if l = [] then some .directory else fs.entries.lookup l

/-- The file system with the given entry at a location. -/
def put (fs : FileSystem) (l : Location) (e : Entry) : FileSystem :=
  { fs with entries := (l, e) :: fs.entries.filter (·.1 ≠ l) }

/-- The file system without the entry at a location and without all that lies below it. -/
def removeAll (fs : FileSystem) (l : Location) : FileSystem :=
  { fs with entries := fs.entries.filter fun e => !l.isPrefixOf e.1 }

theorem lookup_filter_ne {l m : Location} (h : m ≠ l) (es : List (Location × Entry)) :
    (es.filter (·.1 ≠ l)).lookup m = es.lookup m := by
  induction es with
  | nil => rfl
  | cons e es ih =>
    by_cases he : e.1 = l
    · have hm : (m == e.1) = false := by
        rw [he]
        exact beq_false_of_ne h
      rw [List.filter_cons_of_neg (by simpa using he), ih, List.lookup_cons, hm]
    · rw [List.filter_cons_of_pos (by simpa using he), List.lookup_cons, List.lookup_cons, ih]

theorem get?_put_self {l : Location} (h : l ≠ []) (fs : FileSystem) (e : Entry) :
    (fs.put l e).get? l = some e := by
  simp [get?, put, h]

theorem get?_put_ne {l m : Location} (h : m ≠ l) (fs : FileSystem) (e : Entry) :
    (fs.put l e).get? m = fs.get? m := by
  unfold get? put
  split
  · rfl
  · rw [List.lookup_cons, beq_false_of_ne h]
    exact lookup_filter_ne h fs.entries

end FileSystem

end ShaderReport
