import ShaderReport.BuildTarget
import ShaderReport.Job.Pace
import ShaderReport.Json.Value
import ShaderReport.Report.Encode

/-!
# Options

The options of building reports are settled member by member: a patch overrides each member of a
base that it gives another value than the default one. For this the options are written as members
of an object, so both directories have to be text.
-/

namespace ShaderReport

/-- What a member of an object or a table holds, or the given value without such a member. -/
def memberOr {V α : Type} (read : V → Option α) (default : α) (name : String)
    (ms : List (String × V)) : Option α :=
  match ms.lookup name with
  | some v => read v
  | none => some default

open Json (Value)

/-- Why options cannot be merged: a directory has no text, or the members that come out hold no
options. -/
inductive MergeError where
  | path (cause : PathError)
  | malformed
  deriving DecidableEq, Repr

/-- What is said of options that cannot be merged. -/
def MergeError.message : MergeError → String
  | .path cause => cause.message
  | .malformed => "invalid options"

/-- The options of building reports. -/
structure Options where
  target : BuildTarget
  outputDir : Option Path
  pace : Pace
  deriving DecidableEq, Repr

namespace Options

/-- The options when none is set. -/
def default : Options :=
  ⟨.offline, none, .standard⟩

instance : Inhabited Options := ⟨default⟩

/-- The directory as the value of a member. -/
def directoryValue : Option Path → Except PathError Value
  | none => .ok .null
  | some dir => dir.toText.map .string

/-- The options as members of an object. -/
def members (o : Options) : Except PathError (List (String × Value)) :=
  (directoryValue o.outputDir).map fun dir =>
    [("platform", .string o.target.name), ("output-dir", dir),
      ("lines-per-tick", .ofNat o.pace.lines)]

/-- Sets a member of an object, in the place of one of that name. -/
def setMember (name : String) (value : Value) : List (String × Value) → List (String × Value)
  | [] => [(name, value)]
  | (other, v) :: ms =>
    if other = name then (name, value) :: ms else (other, v) :: setMember name value ms

/-- The members of a base with those of a patch set in it that are not the default ones. -/
def overlay (defaults base patch : List (String × Value)) : List (String × Value) :=
  patch.foldl (fun merged (name, value) =>
    if defaults.lookup name = some value then merged else setMember name value merged) base

/-- The directory that the value of a member holds, or none. -/
def directory? : Value → Option (Option Path)
  | .null => some none
  | .string dir => some (some (.ofString dir))
  | _ => none

/-- The pace that the value of a member holds. -/
def pace? : Value → Option Pace
  | .number (.whole n) => Pace.ofNat? n.toNat
  | _ => none

/-- The target that the value of a member holds. -/
def target? : Value → Option BuildTarget
  | .string name => some ⟨name⟩
  | _ => none

/-- The options that members hold, if each of them has its form. -/
def ofMembers? (ms : List (String × Value)) : Option Options := do
  let target ← memberOr target? default.target "platform" ms
  let outputDir ← memberOr directory? default.outputDir "output-dir" ms
  let pace ← memberOr pace? default.pace "lines-per-tick" ms
  some ⟨target, outputDir, pace⟩

/-- Overrides the options of a base by those of a patch. -/
def merge (base patch : Options) : Except MergeError Options := do
  let base ← base.members.mapError .path
  let patch ← patch.members.mapError .path
  let defaults ← default.members.mapError .path
  match ofMembers? (overlay defaults base patch) with
  | some options => .ok options
  | none => .error .malformed

end Options

end ShaderReport
