/-!
# Limits of numbers

Where numbers of a fixed width end. They are written out, or as shifts, so that a limit is one and
the same number wherever it is used.
-/

namespace ShaderReport.Limit

/-- The least number that does not fit 64 bits: two to the power of 64. -/
abbrev unsigned : Nat :=
  18446744073709551616

/-- The least number that does not fit 64 bits along with a sign: two to the power of 63. -/
abbrev signed : Nat :=
  9223372036854775808

/-- The least number that does not fit 128 bits. -/
def wideUnsigned : Nat :=
  1 <<< 128

/-- The least number that does not fit 128 bits along with a sign. -/
def wideSigned : Nat :=
  1 <<< 127

/-- The least whole number that no floating point number of 64 bits comes near to: half a unit of
the last of 53 digits above the greatest one. -/
def floating : Nat :=
  1 <<< 1024 - 1 <<< 970

end ShaderReport.Limit
