import ShaderReport.Text.Digit

/-!
# TOML strings

Strings are read up to their closing quotes. Between double quotes a backslash starts an escape,
between single quotes every character stands for itself.
-/

namespace ShaderReport.Toml

/-- A reader of the values of a type: it takes what it reads off the front of a text. -/
abbrev Reader (α : Type) := List Char → Option (α × List Char)

/-! ### Characters -/

/-- The blanks within a line. -/
def isBlank (c : Char) : Bool :=
  c == ' ' || c == '\t'

/-- A text without the blanks it starts with. -/
def skipBlanks (cs : List Char) : List Char :=
  cs.dropWhile isBlank

/-- The characters that may stand in a comment and in a string: all but control characters other
than a tab. -/
def isPlain (c : Char) : Bool :=
  c == '\t' || (0x20 ≤ c.toNat && c.toNat ≠ 0x7F)

/-- Takes a line break off the front of a text. -/
def takeNewline : List Char → Option (List Char)
  | '\n' :: rest => some rest
  | '\r' :: '\n' :: rest => some rest
  | _ => none

/-! ### Strings -/

/-- Reads the character that the given number of hexadecimal digits spell. -/
def escapedNumber (count : Nat) : Reader Char := fun cs =>
  let digits := cs.take count
  let n := Text.numberOf 16 digits
  if digits.length = count ∧ digits.all (Text.isDigitOf 16) ∧ n.isValidChar then
    some (Char.ofNat n, cs.drop count)
  else none

/-- Reads the character that stands after a backslash. -/
def escaped : Reader Char
  | 'b' :: rest => some ('\x08', rest)
  | 't' :: rest => some ('\t', rest)
  | 'n' :: rest => some ('\n', rest)
  | 'f' :: rest => some ('\x0c', rest)
  | 'r' :: rest => some ('\r', rest)
  | 'e' :: rest => some ('\x1b', rest)
  | '"' :: rest => some ('"', rest)
  | '\\' :: rest => some ('\\', rest)
  | 'x' :: rest => escapedNumber 2 rest
  | 'u' :: rest => escapedNumber 4 rest
  | 'U' :: rest => escapedNumber 8 rest
  | _ => none

/-- Drops the blanks and line breaks that a text starts with, if one of them is a line break. -/
def skipBrokenLines (cs : List Char) : Option (List Char) := do
  let rest ← takeNewline (skipBlanks cs)
  some (dropBreaks rest.length rest)
where
  /-- Drops blanks and line breaks, at most the given number of them. -/
  dropBreaks : Nat → List Char → List Char
    | 0, cs => cs
    | n + 1, cs =>
      match takeNewline (skipBlanks cs) with
      | some rest => dropBreaks n rest
      | none => skipBlanks cs

/-- Puts characters in front of what a reader gives. -/
def prepend (start : List Char) : Option (List Char × List Char) → Option (List Char × List Char)
  | some (cs, rest) => some (start ++ cs, rest)
  | none => none

/-- Reads up to a quote that ends a string on one line, in at most the given number of steps. With
escapes a backslash starts one. -/
def lineCharacters (quote : Char) (escapes : Bool) : Nat → Reader (List Char)
  | 0, _ => none
  | _ + 1, [] => none
  | n + 1, c :: cs =>
    if c = quote then some ([], cs)
    else if escapes ∧ c = '\\' then do
      let (d, rest) ← escaped cs
      prepend [d] (lineCharacters quote escapes n rest)
    else if isPlain c then prepend [c] (lineCharacters quote escapes n cs)
    else none

/-- Reads up to the three quotes that end a string of several lines; one or two more quotes before
them belong to the string. -/
def blockCharacters (quote : Char) (escapes : Bool) : Nat → Reader (List Char)
  | 0, _ => none
  | _ + 1, [] => none
  | n + 1, c :: cs =>
    if c = quote then
      let quotes := (c :: cs).takeWhile (· = quote)
      let rest := (c :: cs).dropWhile (· = quote)
      if quotes.length < 3 then prepend quotes (blockCharacters quote escapes n rest)
      else
        let inside := min (quotes.length - 3) 2
        some (quotes.take inside, (c :: cs).drop (inside + 3))
    else if escapes ∧ c = '\\' then
      match skipBrokenLines cs with
      | some rest => blockCharacters quote escapes n rest
      | none => do
        let (d, rest) ← escaped cs
        prepend [d] (blockCharacters quote escapes n rest)
    else if isPlain c ∨ c = '\n' then prepend [c] (blockCharacters quote escapes n cs)
    else if c = '\r' ∧ cs.head? = some '\n' then prepend [c] (blockCharacters quote escapes n cs)
    else none

/-- Reads a string on one line whose opening quote was read. -/
def lineString (quote : Char) : Reader String := fun cs => do
  let (ds, rest) ← lineCharacters quote (quote = '"') (cs.length + 1) cs
  some (String.ofList ds, rest)

/-- Reads a string of several lines whose opening quotes were read. A line break right after them
does not count. -/
def blockString (quote : Char) : Reader String := fun cs => do
  let body := (takeNewline cs).getD cs
  let (ds, rest) ← blockCharacters quote (quote = '"') (body.length + 1) body
  some (String.ofList ds, rest)

end ShaderReport.Toml
