import ShaderReport.Asset
import ShaderReport.Job.State

/-!
# Countdown jobs

A countdown job is complete after a given number of ticks and does nothing else. A host can try its
handling of jobs on it. What its ticks answer may be fixed, and then need not agree with its state.
-/

namespace ShaderReport

/-- A job that counts its ticks down. -/
structure Countdown where
  maker : String
  asset : Asset
  remaining : Nat
  answer : Option Bool
  deriving DecidableEq, Repr

namespace Countdown

/-- Whether the job is complete. -/
def isComplete (j : Countdown) : Bool :=
  j.remaining = 0

/-- Counts one tick. -/
def tick (j : Countdown) : Bool × Countdown :=
  let j := { j with remaining := j.remaining - 1 }
  (j.answer.getD j.isComplete, j)

/-- What the job shows of itself. -/
def state (j : Countdown) : JobState :=
  .plain j.isComplete

/-- How many ticks the job takes until one of them answers that it is complete, if one does. -/
def ticksLeft (j : Countdown) : Option Nat :=
  match j.answer with
  | some true => some 1
  | some false => none
  | none => some (max 1 j.remaining)

end Countdown

end ShaderReport
