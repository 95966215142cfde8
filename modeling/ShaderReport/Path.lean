import ShaderReport.Text.Utf8

/-!
# Paths

A path is a byte string with `/` between its names. Empty names and, except in front of a relative
path, `.` names do not count: `a//b/./` has the components of `a/b`. What a path says of its last
component (file name, extension, parent) is read off its components.
-/

namespace ShaderReport

/-- The byte `/`. -/
def slash : UInt8 := 0x2F

/-- The byte `.`. -/
def dot : UInt8 := 0x2E

/-- A path of arbitrary bytes. -/
structure Path where
  bytes : Bytes
  deriving DecidableEq, Repr, Inhabited

namespace Path

/-- The path that a text spells. -/
def ofString (s : String) : Path :=
  ⟨Utf8.encode s⟩

/-- The text of a path, if it is valid. -/
def text? (p : Path) : Option String :=
  Utf8.decode? p.bytes

/-- A path as messages show it. -/
def display (p : Path) : String :=
  Utf8.decodeLossy p.bytes

/-- Whether a path starts at the root. -/
def isAbsolute (p : Path) : Bool :=
  p.bytes.head? == some slash

/-- The names between the slashes, empty ones included. -/
def splitNames : Bytes → List Bytes
  | [] => [[]]
  | b :: bs =>
    if b = slash then [] :: splitNames bs
    else match splitNames bs with
      | [] => [[b]]
      | n :: ns => (b :: n) :: ns

/-- The names between the slashes, without empty ones. -/
def names (p : Path) : List Bytes :=
  (splitNames p.bytes).filter (!·.isEmpty)

/-- Whether a path ends with a slash. -/
def endsWithSlash (p : Path) : Bool :=
  p.bytes.getLast? == some slash

/-- A step of a path. -/
inductive Component where
  | root
  | here
  | up
  | name (bytes : Bytes)
  deriving DecidableEq, Repr

/-- The component that a name stands for. -/
def Component.ofName (n : Bytes) : Component :=
  if n = [dot] then .here
  else if n = [dot, dot] then .up
  else .name n

/-- The components of a path. A `.` counts only in front of a relative path. -/
def components (p : Path) : List Component :=
  let steps := p.names.map Component.ofName
  if p.isAbsolute then .root :: steps.filter (· ≠ .here)
  else match steps with
    | .here :: rest => .here :: rest.filter (· ≠ .here)
    | steps => steps.filter (· ≠ .here)

/-- The name of the last component, if that is a name. -/
def fileName (p : Path) : Option Bytes :=
  match p.components.getLast? with
  | some (.name n) => some n
  | _ => none

/-- A name cut at its last dot: what stands before the dot, and what stands after it. -/
def splitAtLastDot (n : Bytes) : Option (Bytes × Bytes) :=
  match n.reverse.dropWhile (· ≠ dot) with
  | [] => none
  | _ :: before => some (before.reverse, (n.reverse.takeWhile (· ≠ dot)).reverse)

/-- What the file name has after its last dot. A dot in front of the file name starts no
extension. -/
def extension (p : Path) : Option Bytes := do
  let (before, after) ← splitAtLastDot (← p.fileName)
  if before.isEmpty then none else some after

/-- The second path as seen from the first one; an absolute second path stays as it is. -/
def join (base other : Path) : Path :=
  if other.isAbsolute then other
  else if base.bytes.isEmpty || base.endsWithSlash then ⟨base.bytes ++ other.bytes⟩
  else ⟨base.bytes ++ slash :: other.bytes⟩

/-- Drops the slashes and the `.` names that a path ends with. The path is given and returned
backwards. -/
def dropTrailing : Bytes → Bytes
  | [] => []
  | b :: bs =>
    if b = slash then dropTrailing bs
    else if b = dot ∧ bs.head? = some slash then dropTrailing bs
    else b :: bs

/-- The path without its last component. The root and the empty path have no parent. -/
def parent (p : Path) : Option Path :=
  let backwards := dropTrailing p.bytes.reverse
  if backwards.isEmpty then none
  else
    let above := (dropTrailing (backwards.dropWhile (· ≠ slash))).reverse
    some (if above.isEmpty && p.isAbsolute then ⟨[slash]⟩ else ⟨above⟩)

/-- The first path, its parent, and so on, up to the given number of paths. -/
def ancestorsUpTo : Nat → Path → List Path
  | 0, _ => []
  | n + 1, p => p :: ((p.parent.map (ancestorsUpTo n)).getD [])

/-- A path followed by all the paths above it. -/
def ancestors (p : Path) : List Path :=
  ancestorsUpTo (p.bytes.length + 1) p

end Path

end ShaderReport
