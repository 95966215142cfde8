import ShaderReport.Config.Resolve

/-!
# Showing the config

The targets of a config are shown one a line, in order, with what they are capable of and how many
lines their jobs scan in one tick.
-/

namespace ShaderReport

/-- The line that shows a target. -/
def Config.platformLine (c : Config) (target : BuildTarget) (p : PlatformConfig) : String :=
  let capabilities :=
    if p.capabilities.isEmpty then "no capabilities"
    else ", ".intercalate (p.capabilities.map Capability.name)
  s!"{target.name}: {capabilities} ({(c.paceOf target).lines} lines per tick)"

/-- The lines that show the targets. -/
def Config.platformLines (c : Config) : List String :=
  c.platforms.map fun (target, p) => c.platformLine target p

end ShaderReport
