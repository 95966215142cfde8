import ShaderReport.Config.Options
import ShaderReport.Toml.Reader

/-!
# Config files

A config file sets options and declares the build targets that there are. Members that nothing asks
for do not matter, as long as their numbers are within bounds.
-/

namespace ShaderReport

/-- The declaration of a build target. -/
structure PlatformConfig where
  capabilities : List Capability
  pace : Option Pace
  deriving DecidableEq, Repr

/-- The declaration that says nothing. -/
def PlatformConfig.default : PlatformConfig :=
  ⟨[.buildReport], none⟩

instance : Inhabited PlatformConfig := ⟨PlatformConfig.default⟩

/-- What a config file holds. The targets are in order, each of them once. -/
structure ConfigFile where
  options : Options
  platforms : List (BuildTarget × PlatformConfig)
  deriving DecidableEq, Repr

namespace ConfigFile

open Toml (Value)

/-- A config file that says nothing. -/
def default : ConfigFile :=
  ⟨.default, []⟩

/-- The text that a value holds. -/
def string? : Value → Option String
  | .string s => some s
  | _ => none

/-- The pace that a value holds. -/
def pace? : Value → Option Pace
  | .integer (some n) => if n < 0 then none else Pace.ofNat? n.toNat
  | _ => none

/-- The capability that a value holds: its name, or a table whose only member has that name and
nothing in it. -/
def capability? : Value → Option Capability
  | .string name => Capability.ofName? name
  | .table [(name, .table [])] => Capability.ofName? name
  | .table [(name, .array [])] => Capability.ofName? name
  | _ => none

/-- The capabilities that a value holds. -/
def capabilities? : Value → Option (List Capability)
  | .array items => items.mapM capability?
  | _ => none

/-- What an item of an array holds, or the given value where the array is too short. -/
def itemOr {α : Type} (read : Value → Option α) (default : α) (i : Nat) (items : List Value) :
    Option α :=
  match items[i]? with
  | some v => read v
  | none => some default

/-- The bounds of the numbers in a declaration that nothing asks for. -/
def isHarmlessInPlatform (v : Value) : Bool :=
  v.isWithin (-Limit.wideSigned) (Limit.wideUnsigned - 1)

/-- The declaration that a value holds: a table, or an array of its two parts. A date declares
nothing. -/
def platform? : Value → Option PlatformConfig
  | .table ms => do
    let capabilities ← memberOr capabilities? PlatformConfig.default.capabilities "capabilities" ms
    let pace ← memberOr (fun v => (pace? v).map some) none "lines-per-tick" ms
    if ms.all fun (_, v) => isHarmlessInPlatform v then some ⟨capabilities, pace⟩ else none
  | .array items => do
    let capabilities ← itemOr capabilities? PlatformConfig.default.capabilities 0 items
    let pace ← itemOr (fun v => (pace? v).map some) none 1 items
    some ⟨capabilities, pace⟩
  | .dateTime _ => some .default
  | _ => none

/-- Puts a declaration into a list in the order of the targets, in the place of one that is
there. -/
def insertPlatform (target : BuildTarget) (p : PlatformConfig) :
    List (BuildTarget × PlatformConfig) → List (BuildTarget × PlatformConfig)
  | [] => [(target, p)]
  | (t, q) :: rest =>
    if t = target then (target, p) :: rest
    else if target.name < t.name then (target, p) :: (t, q) :: rest
    else (t, q) :: insertPlatform target p rest

/-- The declarations that a value holds. -/
def platforms? : Value → Option (List (BuildTarget × PlatformConfig))
  | .table ms => do
    let declared ← ms.mapM fun (name, v) => (platform? v).map fun p => (BuildTarget.mk name, p)
    some (declared.foldl (fun all (t, p) => insertPlatform t p all) [])
  | _ => none

/-- The bounds of the numbers in a file outside of declarations. -/
def isHarmless (v : Value) : Bool :=
  v.isWithin (-Limit.signed) (Limit.unsigned - 1)

/-- The file that members hold. -/
def ofMembers? (ms : List (String × Value)) : Option ConfigFile := do
  let target ← memberOr string? Options.default.target.name "platform" ms
  let outputDir ← memberOr (fun v => (string? v).map (some ∘ Path.ofString)) none "output-dir" ms
  let pace ← memberOr pace? Options.default.pace "lines-per-tick" ms
  let platforms ← memberOr platforms? [] "platforms" ms
  if ms.all fun (name, v) => name = "platforms" || isHarmless v then
    some ⟨⟨⟨target⟩, outputDir, pace⟩, platforms⟩
  else none

/-- The file that a text holds. -/
def parse? (text : String) : Option ConfigFile :=
  (Toml.parse text).bind ofMembers?

end ConfigFile

end ShaderReport
