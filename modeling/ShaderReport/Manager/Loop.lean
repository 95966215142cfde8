import ShaderReport.Manager.Basic

/-!
# The loop of the host

The host ticks the manager for as long as its source of ticks is registered.
-/

namespace ShaderReport.Manager

variable {F W : Type}

/-- Ticks a manager until its source is not registered any more, at most the given number of times.
Returns the number of ticks, and the manager after them. -/
def runUntilIdle (ws : Workshop F W) : Nat → Manager F W → Nat × Manager F W
  | 0, m => (0, m)
  | limit + 1, m =>
    if m.source.registered then
      let (cycles, m) := runUntilIdle ws limit (m.onTick ws)
      (cycles + 1, m)
    else (0, m)

end ShaderReport.Manager
