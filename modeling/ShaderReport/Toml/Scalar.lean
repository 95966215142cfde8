import ShaderReport.Toml.DateTime
import ShaderReport.Toml.Number
import ShaderReport.Toml.Quoted

/-!
# TOML scalars

Strings are told by their quotes. All other scalars are a run of characters first, and told apart by
the form of the whole run.
-/

namespace ShaderReport.Toml

/-- The characters that end a run. -/
def isRunEnd (c : Char) : Bool :=
  isBlank c || c == '\n' || c == '\r' || c == '=' || c == ',' || c == '[' || c == ']' ||
    c == '\x7b' || c == '\x7d' || c == '#'

/-- Takes a run off the front of a text. One blank between a date and a time belongs to the run. -/
def takeRun (cs : List Char) : List Char × List Char :=
  let run := cs.takeWhile (!isRunEnd ·)
  let rest := cs.dropWhile (!isRunEnd ·)
  match rest with
  | ' ' :: c :: _ =>
    if isDate run ∧ c.isDigit then
      let after := rest.drop 1
      (run ++ ' ' :: after.takeWhile (!isRunEnd ·), after.dropWhile (!isRunEnd ·))
    else (run, rest)
  | _ => (run, rest)

/-- The value that a run spells. -/
def runValue? (run : List Char) : Option Value :=
  if run = "true".toList then some (.boolean true)
  else if run = "false".toList then some (.boolean false)
  else if isDateTime run then some (.dateTime (String.ofList run))
  else number? run

/-- Reads a scalar. -/
def scalar : Reader Value
  | '"' :: '"' :: '"' :: rest => do
    let (s, rest) ← blockString '"' rest
    some (.string s, rest)
  | '\'' :: '\'' :: '\'' :: rest => do
    let (s, rest) ← blockString '\'' rest
    some (.string s, rest)
  | '"' :: rest => do
    let (s, rest) ← lineString '"' rest
    some (.string s, rest)
  | '\'' :: rest => do
    let (s, rest) ← lineString '\'' rest
    some (.string s, rest)
  | cs => do
    let (run, rest) := takeRun cs
    some (← runValue? run, rest)

end ShaderReport.Toml
