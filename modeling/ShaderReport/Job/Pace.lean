import ShaderReport.Limit

/-!
# Paces

How many lines of a source a job scans in one tick: at least one, and less than 2^64.
-/

namespace ShaderReport

/-- A number of lines to be scanned in one tick. -/
structure Pace where
  lines : Nat
  bounds : 0 < lines ∧ lines < Limit.unsigned
  deriving DecidableEq, Repr

namespace Pace

/-- The pace used when no other is chosen. -/
def standard : Pace :=
  ⟨64, by decide⟩

instance : Inhabited Pace := ⟨standard⟩

/-- A number as a pace, if it is one. -/
def ofNat? (n : Nat) : Option Pace :=
  if h : 0 < n ∧ n < Limit.unsigned then some ⟨n, h⟩ else none

theorem lines_pos (p : Pace) : 0 < p.lines :=
  p.bounds.1

theorem ofNat?_lines (p : Pace) : ofNat? p.lines = some p :=
  dif_pos p.bounds

end Pace

end ShaderReport
