import ShaderReport.Single

/-!
# What a job shows of itself

Whether a job is complete, how far it is, what it is doing, and why it failed if it did.
-/

namespace ShaderReport

/-- What a job shows of itself. -/
structure JobState where
  complete : Bool
  progress : Single
  message : String
  failure : Option String
  deriving DecidableEq, Repr

/-- A job that shows no more than whether it is complete. -/
def JobState.plain (complete : Bool) : JobState where
  complete := complete
  progress := if complete then .one else .zero
  message := if complete then "done" else "running"
  failure := none

/-- A state as it is shown for debugging. -/
def JobState.debug (s : JobState) : String :=
  s!"JobHandle \x7b complete: {s.complete}, progress: {s.progress.toText} \x7d"

end ShaderReport
