import ShaderReport.Json.Value
import ShaderReport.Limit
import ShaderReport.Text.Digit

/-!
# Reading JSON

A reader takes what it reads off the front of a text and returns the rest. A text is refused for
one of two reasons: it ends too early, or it goes on with a character that no value allows at this
place. Reading an object name by name is a step of its own (`nextName`, `colon`), so that the
members of an object can be looked at while the text is read.

A number that is not whole, or too large for 64 bits, must still be within the reach of a binary
floating point number of 64 bits. Arrays and objects lie at most 127 deep.
-/

namespace ShaderReport.Json

/-- Why a text is refused: it is malformed, it ends too early, or it does not hold what was asked
for. -/
inductive ReadError where
  | malformed
  | cutShort
  | mismatch
  deriving DecidableEq, Repr

/-- A reader of the values of a type. -/
abbrev Reader (α : Type) := List Char → Except ReadError (α × List Char)

/-- The blanks between the parts of a text. -/
def isBlank (c : Char) : Bool :=
  c == ' ' || c == '\n' || c == '\t' || c == '\r'

/-- A text without the blanks it starts with. -/
def skipBlanks (cs : List Char) : List Char :=
  cs.dropWhile isBlank

/-- Refuses what follows: the end of the text, or an unexpected character. -/
def refuse {α : Type} : List Char → Except ReadError α
  | [] => .error .cutShort
  | _ => .error .malformed

/-- Reads the given characters. -/
def literal : List Char → Reader Unit
  | [], cs => .ok ((), cs)
  | _ :: _, [] => .error .cutShort
  | e :: es, c :: cs => if c = e then literal es cs else .error .malformed

/-! ### Texts -/

/-- Reads the four digits of an escaped character. A text cuts them short if fewer than four bytes
of it are left. -/
def fourDigits : Reader Nat
  | a :: b :: c :: d :: rest =>
    if [a, b, c, d].all (Text.isDigitOf 16) then .ok (Text.numberOf 16 [a, b, c, d], rest)
    else .error .malformed
  | few =>
    if few.foldl (fun bytes c => bytes + c.utf8Size) 0 < 4 then .error .cutShort
    else .error .malformed

/-- Reads a character escaped by its digits. Two surrogates make one character; one alone makes
none. -/
def escapedNumber : Reader Char := fun cs => do
  let (high, rest) ← fourDigits cs
  if high < 0xD800 ∨ 0xDFFF < high then .ok (Char.ofNat high, rest)
  else if 0xDC00 ≤ high then .error .malformed
  else
    let ((), rest) ← literal ['\\', 'u'] rest
    let (low, rest) ← fourDigits rest
    if 0xDC00 ≤ low ∧ low ≤ 0xDFFF then
      .ok (Char.ofNat (0x10000 + (high - 0xD800) * 0x400 + (low - 0xDC00)), rest)
    else .error .malformed

/-- Reads the character that stands after a backslash. -/
def escaped : Reader Char
  | '"' :: rest => .ok ('"', rest)
  | '\\' :: rest => .ok ('\\', rest)
  | '/' :: rest => .ok ('/', rest)
  | 'b' :: rest => .ok ('\x08', rest)
  | 'f' :: rest => .ok ('\x0c', rest)
  | 'n' :: rest => .ok ('\n', rest)
  | 'r' :: rest => .ok ('\r', rest)
  | 't' :: rest => .ok ('\t', rest)
  | 'u' :: rest => escapedNumber rest
  | cs => refuse cs

theorem length_of_literal {es cs rest : List Char} (h : literal es cs = .ok ((), rest)) :
    rest.length ≤ cs.length := by
  induction es generalizing cs with
  | nil =>
    simp only [literal, Except.ok.injEq, Prod.mk.injEq, true_and] at h
    exact Nat.le_of_eq (congrArg List.length h.symm)
  | cons e es ih =>
    cases cs with
    | nil => simp [literal] at h
    | cons c cs =>
      rw [literal] at h
      split at h
      · exact Nat.le_succ_of_le (ih h)
      · cases h

theorem length_of_fourDigits {cs rest : List Char} {n : Nat}
    (h : fourDigits cs = .ok (n, rest)) : rest.length ≤ cs.length := by
  unfold fourDigits at h
  split at h
  · split at h
    · cases h
      simp only [List.length_cons]
      omega
    · cases h
  · split at h <;> cases h

theorem length_of_escapedNumber {cs rest : List Char} {c : Char}
    (h : escapedNumber cs = .ok (c, rest)) : rest.length ≤ cs.length := by
  unfold escapedNumber at h
  cases hf : fourDigits cs with
  | error e =>
    rw [hf] at h
    cases h
  | ok r =>
    rw [hf] at h
    simp only [bind, Except.bind] at h
    have hr := length_of_fourDigits hf
    split at h
    · rw [Except.ok.injEq, Prod.mk.injEq] at h
      rw [← h.2]
      exact hr
    · split at h
      · cases h
      · cases hl : literal ['\\', 'u'] r.2 with
        | error e =>
          rw [hl] at h
          cases h
        | ok s =>
          rw [hl] at h
          have hs := length_of_literal hl
          simp only at h
          cases hg : fourDigits s.2 with
          | error e =>
            rw [hg] at h
            cases h
          | ok t =>
            rw [hg] at h
            have ht := length_of_fourDigits hg
            simp only at h
            split at h
            · rw [Except.ok.injEq, Prod.mk.injEq] at h
              rw [← h.2]
              omega
            · cases h

theorem length_of_escaped {cs rest : List Char} {c : Char}
    (h : escaped cs = .ok (c, rest)) : rest.length < cs.length := by
  unfold escaped at h
  split at h
  case h_9 rest' =>
    exact Nat.lt_succ_of_le (length_of_escapedNumber h)
  case h_10 =>
    unfold refuse at h
    split at h <;> cases h
  all_goals
    cases h
    exact Nat.lt_succ_self _

/-- Reads the characters up to the closing quote, and the quote. -/
def characters : Reader (List Char)
  | [] => .error .cutShort
  | c :: cs =>
    if c = '"' then .ok ([], cs)
    else if c = '\\' then
      match h : escaped cs with
      | .error e => .error e
      | .ok (d, rest) =>
        have : rest.length < cs.length := length_of_escaped h
        (characters rest).map fun (ds, rest) => (d :: ds, rest)
    else if c.toNat < 0x20 then .error .malformed
    else (characters cs).map fun (ds, rest) => (c :: ds, rest)
  termination_by cs => cs.length

/-- Reads a text whose opening quote was read. -/
def text : Reader String := fun cs =>
  (characters cs).map fun (ds, rest) => (String.ofList ds, rest)

/-! ### Numbers -/

/-- Reads at least one decimal digit. -/
def digits : Reader (List Char) := fun cs =>
  let ds := cs.takeWhile Char.isDigit
  if ds.isEmpty then refuse cs else .ok (ds, cs.dropWhile Char.isDigit)

/-- Reads the digits of a whole number: a zero in front stands alone. -/
def wholeDigits : Reader (List Char) := fun cs => do
  let (ds, rest) ← digits cs
  if ds.length > 1 ∧ ds.head? = some '0' then .error .malformed else .ok (ds, rest)

/-- Reads the digits after a point, if there is a point. -/
def fraction : Reader (Option (List Char))
  | '.' :: cs => (digits cs).map fun (ds, rest) => (some ds, rest)
  | cs => .ok (none, cs)

/-- Reads a power of ten, if there is one. -/
def power : Reader (Option Int)
  | c :: cs =>
    if c = 'e' ∨ c = 'E' then
      let (negative, cs) := match cs with
        | '-' :: cs => (true, cs)
        | '+' :: cs => (false, cs)
        | cs => (false, cs)
      (digits cs).map fun (ds, rest) =>
        (some (if negative then -(Text.numberOf 10 ds : Int) else Text.numberOf 10 ds), rest)
    else .ok (none, c :: cs)
  | [] => .ok (none, [])

/-- Takes digits onto a number for as long as the number stays below 2^64. Returns the number and
how many digits were not taken. -/
def accumulate : Nat → List Char → Nat × Nat
  | n, [] => (n, 0)
  | n, d :: ds =>
    let more := 10 * n + (Text.digitValue? d).getD 0
    if more < Limit.unsigned then accumulate more ds else (n, ds.length + 1)

/-- The number with 53 binary digits that is nearest to a number, an even one of two. -/
def nearestBinary (n : Nat) : Nat :=
  let unit := 1 <<< (n.log2 + 1 - 53)
  let rest := n % unit
  let low := n / unit
  if 2 * rest < unit ∨ (2 * rest = unit ∧ low % 2 = 0) then low * unit else (low + 1) * unit

/-- Whether a number times a power of ten is beyond the floating point numbers. -/
def exceedsRange (n : Nat) (exponent : Int) : Bool :=
  n ≠ 0 && 0 ≤ exponent &&
    (308 < exponent ||
      Limit.floating ≤ nearestBinary n * nearestBinary (Nat.pow 10 exponent.toNat))

/-- The number with the given digits. It is whole if it is spelled so, is not a negative zero and
fits 64 bits. -/
def Number.ofDigits (negative : Bool) (wholes : List Char) (decimals : Option (List Char))
    (exponent : Option Int) : Except ReadError Number :=
  let value := Text.numberOf 10 wholes
  if decimals.isNone ∧ exponent.isNone ∧ !negative ∧ value < Limit.unsigned then .ok (.whole value)
  else if decimals.isNone ∧ exponent.isNone ∧ negative ∧ value ≠ 0 ∧ value ≤ Limit.signed then
    .ok (.whole (-value))
  else
    let (high, dropped) := accumulate 0 wholes
    let (all, cut) := accumulate high (decimals.getD [])
    let taken := (decimals.getD []).length - cut
    let scale : Int := dropped - taken + exponent.getD 0
    if exceedsRange all scale then .error .malformed else .ok (.decimal negative all scale)

/-- Reads a number. -/
def number : Reader Number := fun cs => do
  let (negative, cs) := match cs with
    | '-' :: cs => (true, cs)
    | cs => (false, cs)
  let (wholes, cs) ← wholeDigits cs
  let (decimals, cs) ← fraction cs
  let (exponent, cs) ← power cs
  .ok (← Number.ofDigits negative wholes decimals exponent, cs)

/-! ### Values -/

/-- Reads a value that is no array and no object. -/
def scalar : Reader Value
  | 'n' :: cs => (literal "ull".toList cs).map fun ((), rest) => (.null, rest)
  | 't' :: cs => (literal "rue".toList cs).map fun ((), rest) => (.bool true, rest)
  | 'f' :: cs => (literal "alse".toList cs).map fun ((), rest) => (.bool false, rest)
  | '"' :: cs => (text cs).map fun (s, rest) => (.string s, rest)
  | c :: cs =>
    if c = '-' ∨ c.isDigit then (number (c :: cs)).map fun (n, rest) => (.number n, rest)
    else .error .malformed
  | [] => .error .cutShort

/-- Reads the name of the next member of an object, or the brace that closes it. A comma stands
before every member but the first. -/
def nextName (first : Bool) : Reader (Option String) := fun cs =>
  match skipBlanks cs with
  | '\x7d' :: rest => .ok (none, rest)
  | '"' :: rest =>
    if first then (text rest).map fun (s, rest) => (some s, rest) else .error .malformed
  | ',' :: rest =>
    if first then .error .malformed
    else match skipBlanks rest with
      | '"' :: rest => (text rest).map fun (s, rest) => (some s, rest)
      | rest => refuse rest
  | rest => refuse rest

/-- Reads the colon between a name and its value. -/
def colon : Reader Unit := fun cs =>
  match skipBlanks cs with
  | ':' :: rest => .ok ((), rest)
  | rest => refuse rest

/-- Reads what stands before the next item of an array, or the bracket that closes it: `true` for
an item. -/
def nextItem (first : Bool) : Reader Bool := fun cs =>
  match skipBlanks cs with
  | ']' :: rest => .ok (false, rest)
  | ',' :: rest =>
    if first then .error .malformed
    else match skipBlanks rest with
      | ']' :: _ => .error .malformed
      | rest => .ok (true, rest)
  | [] => .error .cutShort
  | rest => if first then .ok (true, rest) else .error .malformed

mutual

/-- Reads a value, with the given number of steps and levels left. -/
def valueWithin : Nat → Nat → Reader Value
  | 0, _, _ => .error .malformed
  | steps + 1, levels, cs =>
    match skipBlanks cs with
    | '[' :: rest =>
      if levels ≤ 1 then .error .malformed
      else (itemsWithin steps (levels - 1) true rest).map fun (vs, rest) => (.array vs, rest)
    | '\x7b' :: rest =>
      if levels ≤ 1 then .error .malformed
      else (membersWithin steps (levels - 1) true rest).map fun (ms, rest) => (.object ms, rest)
    | rest => scalar rest

/-- Reads the items of an array from here on, and the closing bracket. -/
def itemsWithin : Nat → Nat → Bool → Reader (List Value)
  | 0, _, _, _ => .error .malformed
  | steps + 1, levels, first, cs => do
    let (more, rest) ← nextItem first cs
    if more then
      let (v, rest) ← valueWithin steps levels rest
      let (vs, rest) ← itemsWithin steps levels false rest
      .ok (v :: vs, rest)
    else .ok ([], rest)

/-- Reads the members of an object from here on, and the closing brace. -/
def membersWithin : Nat → Nat → Bool → Reader (List (String × Value))
  | 0, _, _, _ => .error .malformed
  | steps + 1, levels, first, cs => do
    let (name, rest) ← nextName first cs
    match name with
    | none => .ok ([], rest)
    | some name =>
      let ((), rest) ← colon rest
      let (v, rest) ← valueWithin steps levels rest
      let (ms, rest) ← membersWithin steps levels false rest
      .ok ((name, v) :: ms, rest)

end

/-- How deep arrays and objects may lie in a text, plus one. -/
def maxLevels : Nat := 128

/-- Reads a value at a place where the given number of levels is left. Every step takes at least
one character, but for one step each between a value and its first part. -/
def value (levels : Nat) : Reader Value := fun cs =>
  valueWithin (2 * cs.length + 2) levels cs

/-- Refuses anything but blanks. -/
def finish (cs : List Char) : Except ReadError Unit :=
  if (skipBlanks cs).isEmpty then .ok () else .error .malformed

/-- The value that a text holds. -/
def parse (s : String) : Except ReadError Value := do
  let (v, rest) ← value maxLevels s.toList
  finish rest
  .ok v

end ShaderReport.Json
