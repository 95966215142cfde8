import ShaderReport.Toml.Document
import ShaderReport.Toml.Scalar

/-!
# Reading TOML

A document is a sequence of lines, each with a header, a key and its value, or neither. Arrays,
inline tables and some strings may go over several lines. Keys have at most eighty parts, and arrays
and inline tables lie at most eighty deep.
-/

namespace ShaderReport.Toml

/-- Drops a comment that a text starts with. A comment holds no control characters. -/
def skipComment : List Char → Option (List Char)
  | '#' :: cs =>
    let rest := cs.dropWhile isPlain
    if rest.isEmpty ∨ (takeNewline rest).isSome then some rest else none
  | cs => some cs

/-- Drops blanks, comments and line breaks, at most the given number of lines of them. -/
def skipLines : Nat → List Char → Option (List Char)
  | 0, cs => some cs
  | n + 1, cs => do
    let rest ← skipComment (skipBlanks cs)
    match takeNewline rest with
    | some rest => skipLines n rest
    | none => some rest

/-- Drops all the blanks, comments and line breaks that a text starts with. -/
def skipAll (cs : List Char) : Option (List Char) :=
  skipLines (cs.length + 1) cs

/-- Drops what may follow a header or a value on its line, and the end of the line. -/
def endLine (cs : List Char) : Option (List Char) := do
  let rest ← skipComment (skipBlanks cs)
  if rest.isEmpty then some [] else takeNewline rest

/-! ### Keys -/

/-- The characters of keys without quotes. -/
def isKeyCharacter (c : Char) : Bool :=
  c.isAlphanum || c == '-' || c == '_'

/-- Reads a key without dots. -/
def simpleKey : Reader String
  | '"' :: rest => lineString '"' rest
  | '\'' :: rest => lineString '\'' rest
  | cs =>
    let key := cs.takeWhile isKeyCharacter
    if key.isEmpty then none else some (String.ofList key, cs.dropWhile isKeyCharacter)

/-- Reads a key with at most the given number of parts. -/
def keyWithin : Nat → Reader (List String)
  | 0, _ => none
  | n + 1, cs => do
    let (key, rest) ← simpleKey (skipBlanks cs)
    match skipBlanks rest with
    | '.' :: rest =>
      let (keys, rest) ← keyWithin n rest
      some (key :: keys, rest)
    | rest => some ([key], rest)

/-- How many parts a key may have, and how deep arrays and inline tables may lie. -/
def maxLevels : Nat := 80

/-- Reads a key, and the blanks after it. -/
def key : Reader (List String) :=
  keyWithin maxLevels

/-- Reads an equals sign. -/
def equals : Reader Unit
  | '=' :: rest => some ((), rest)
  | _ => none

/-! ### Values -/

mutual

/-- Reads a value, with the given number of steps and levels left. -/
def valueWithin : Nat → Nat → Reader Value
  | 0, _, _ => none
  | steps + 1, levels, cs =>
    match cs with
    | '[' :: rest =>
      if levels = 0 then none
      else do
        let (items, rest) ← itemsWithin steps (levels - 1) rest
        some (.array items, rest)
    | '\x7b' :: rest =>
      if levels = 0 then none
      else do
        let (members, rest) ← inlineWithin steps (levels - 1) [] rest
        some (.table (membersToValues members), rest)
    | cs => scalar cs

/-- Reads the items of an array from here on, and the closing bracket. -/
def itemsWithin : Nat → Nat → Reader (List Value)
  | 0, _, _ => none
  | steps + 1, levels, cs => do
    match ← skipAll cs with
    | ']' :: rest => some ([], rest)
    | rest =>
      let (v, rest) ← valueWithin steps levels rest
      match ← skipAll rest with
      | ',' :: rest =>
        let (vs, rest) ← itemsWithin steps levels rest
        some (v :: vs, rest)
      | ']' :: rest => some ([v], rest)
      | _ => none

/-- Reads the members of an inline table from here on, and the closing brace. Line breaks may stand
around the equals signs, but not within a key. -/
def inlineWithin : Nat → Nat → Members → Reader Members
  | 0, _, _, _ => none
  | steps + 1, levels, ms, cs => do
    match ← skipAll cs with
    | '\x7d' :: rest => some (ms, rest)
    | rest =>
      let (keys, rest) ← key rest
      let ((), rest) ← equals (← skipAll rest)
      let (v, rest) ← valueWithin steps levels (← skipAll rest)
      let ms ← ms.addByKey keys v
      match ← skipAll rest with
      | ',' :: rest => inlineWithin steps levels ms rest
      | '\x7d' :: rest => some (ms, rest)
      | _ => none

end

/-- Reads a value. Every step takes at least one character, but for one step each between an array
and its first item. -/
def value : Reader Value := fun cs =>
  valueWithin (2 * cs.length + 2) maxLevels cs

/-! ### Lines -/

/-- A document as far as it was read, and the header that its next lines belong to. -/
structure Draft where
  members : Members
  header : List String

/-- Adds a line to a document: what the line holds, and what follows it. -/
def line (d : Draft) : Reader Draft := fun cs =>
  match skipBlanks cs with
  | '[' :: '[' :: rest => do
    match ← key rest with
    | (keys, ']' :: ']' :: rest) =>
      some (⟨← d.members.openArrayItem keys, keys⟩, ← endLine rest)
    | _ => none
  | '[' :: rest => do
    match ← key rest with
    | (keys, ']' :: rest) => some (⟨← d.members.openTable keys, keys⟩, ← endLine rest)
    | _ => none
  | rest =>
    if rest.isEmpty ∨ rest.head? = some '#' ∨ (takeNewline rest).isSome then do
      some (d, ← endLine rest)
    else do
      let (keys, rest) ← key rest
      let ((), rest) ← equals rest
      let (v, rest) ← value (skipBlanks rest)
      let members ← Members.alterByHeader (Members.addByKey keys v) d.header d.members
      some ({ d with members := members }, ← endLine rest)

/-- Reads lines up to the end of the text, at most the given number of them. -/
def linesWithin : Nat → Draft → List Char → Option Draft
  | 0, _, _ => none
  | n + 1, d, cs =>
    if cs.isEmpty then some d
    else do
      let (d, rest) ← line d cs
      linesWithin n d rest

/-- The members of the table that a document holds. A byte order mark in front does not count. -/
def parse (s : String) : Option (List (String × Value)) := do
  let cs := match s.toList with
    | '\uFEFF' :: cs => cs
    | cs => cs
  let d ← linesWithin (cs.length + 1) ⟨[], []⟩ cs
  some (membersToValues d.members)

end ShaderReport.Toml
