import ShaderReport.Json.Value

/-!
# Printing JSON

A value has two printed forms: a compact one without any blanks, and a laid out one with two blanks
for each level, in which empty arrays and objects stay on one line.
-/

namespace ShaderReport.Json

/-- The two lower-case hexadecimal digits of a number below 256. -/
def hexPair (n : Nat) : List Char :=
  [Nat.digitChar (n / 16 % 16), Nat.digitChar (n % 16)]

/-- A character as it stands in a quoted text. -/
def escape (c : Char) : List Char :=
  if c = '"' then ['\\', '"']
  else if c = '\\' then ['\\', '\\']
  else if c = '\x08' then ['\\', 'b']
  else if c = '\x0c' then ['\\', 'f']
  else if c = '\n' then ['\\', 'n']
  else if c = '\r' then ['\\', 'r']
  else if c = '\t' then ['\\', 't']
  else if c.toNat < 0x20 then ['\\', 'u', '0', '0'] ++ hexPair c.toNat
  else [c]

/-- A text between quotes. -/
def quoted (s : String) : List Char :=
  '"' :: s.toList.flatMap escape ++ ['"']

/-- The decimal digits of a number after its sign, if that is a minus. -/
def signed (negative : Bool) (digits : Nat) : List Char :=
  (if negative then ['-'] else []) ++ Nat.toDigits 10 digits

/-- A number as it is written. -/
def Number.print : Number → List Char
  | .whole n => signed (n < 0) n.natAbs
  | .decimal negative digits exponent =>
    signed negative digits ++ 'e' :: signed (exponent < 0) exponent.natAbs

namespace Value

mutual

/-- The compact form of a value. -/
def compact : Value → List Char
  | .null => "null".toList
  | .bool b => (toString b).toList
  | .number n => n.print
  | .string s => quoted s
  | .array items => '[' :: compactItems items ++ [']']
  | .object members => '\x7b' :: compactMembers members ++ ['\x7d']

/-- The compact forms of the items of an array. -/
def compactItems : List Value → List Char
  | [] => []
  | [v] => compact v
  | v :: vs => compact v ++ ',' :: compactItems vs

/-- The compact forms of the members of an object. -/
def compactMembers : List (String × Value) → List Char
  | [] => []
  | [(name, v)] => quoted name ++ ':' :: compact v
  | (name, v) :: ms => quoted name ++ ':' :: compact v ++ ',' :: compactMembers ms

end

/-- The start of a line on the given level. -/
def newline (level : Nat) : List Char :=
  '\n' :: List.replicate (2 * level) ' '

mutual

/-- The laid out form of a value on the given level. -/
def pretty (level : Nat) : Value → List Char
  | .null => "null".toList
  | .bool b => (toString b).toList
  | .number n => n.print
  | .string s => quoted s
  | .array [] => ['[', ']']
  | .array (v :: vs) => '[' :: prettyItems (level + 1) (v :: vs) ++ newline level ++ [']']
  | .object [] => ['\x7b', '\x7d']
  | .object (m :: ms) =>
    '\x7b' :: prettyMembers (level + 1) (m :: ms) ++ newline level ++ ['\x7d']

/-- The laid out forms of the items of an array, each on a line of its own. -/
def prettyItems (level : Nat) : List Value → List Char
  | [] => []
  | [v] => newline level ++ pretty level v
  | v :: vs => newline level ++ pretty level v ++ ',' :: prettyItems level vs

/-- The laid out forms of the members of an object, each on a line of its own. -/
def prettyMembers (level : Nat) : List (String × Value) → List Char
  | [] => []
  | [(name, v)] => newline level ++ quoted name ++ ':' :: ' ' :: pretty level v
  | (name, v) :: ms =>
    newline level ++ quoted name ++ ':' :: ' ' :: pretty level v ++ ',' :: prettyMembers level ms

end

/-- The compact text of a value. -/
def toCompact (v : Value) : String :=
  String.ofList v.compact

/-- The laid out text of a value. -/
def toPretty (v : Value) : String :=
  String.ofList (v.pretty 0)

end Value

end ShaderReport.Json
