/-!
# Log records

What a program says besides its output, in two degrees.
-/

namespace ShaderReport

/-- How serious a record is. -/
inductive Severity where
  | warning
  | error
  deriving DecidableEq, Repr

/-- The word for a degree. -/
def Severity.label : Severity → String
  | .warning => "warn"
  | .error => "error"

/-- A record of the log. -/
structure LogRecord where
  severity : Severity
  text : String
  deriving DecidableEq, Repr

/-- A record as one line. -/
def LogRecord.line (r : LogRecord) : String :=
  s!"{r.severity.label}: {r.text}"

end ShaderReport
