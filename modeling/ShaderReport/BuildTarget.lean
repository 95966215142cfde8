/-!
# Build targets

Reports are built for a target, known by its name alone. Targets are ordered as their names are,
code point by code point.
-/

namespace ShaderReport

/-- A target that reports are built for. -/
structure BuildTarget where
  name : String
  deriving DecidableEq, Repr, Inhabited

/-- What a target may be capable of. -/
inductive Capability where
  | buildReport
  deriving DecidableEq, Repr

/-- The name of a capability. -/
def Capability.name : Capability → String
  | .buildReport => "build-report"

/-- The capability of a name. -/
def Capability.ofName? (name : String) : Option Capability :=
  if name = "build-report" then some .buildReport else none

namespace BuildTarget

/-- The target used when no other is chosen. -/
def offline : BuildTarget := ⟨"offline"⟩

/-- Puts a target into a sorted list of targets, unless it is there already. -/
def insertSorted (t : BuildTarget) : List BuildTarget → List BuildTarget
  | [] => [t]
  | u :: us =>
    if t = u then u :: us
    else if t.name < u.name then t :: u :: us
    else u :: insertSorted t us

/-- The targets of a list in order, each of them once. -/
def sorted (targets : List BuildTarget) : List BuildTarget :=
  targets.foldr insertSorted []

end BuildTarget

end ShaderReport
