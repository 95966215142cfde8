import ShaderReport.Text.Digit
import ShaderReport.Toml.Value

/-!
# TOML numbers

What a run of characters has to look like to be an integer or a floating point number, and what it
is worth. Digits may be separated by underscores, one at a time and none at an end.
-/

namespace ShaderReport.Toml

/-- The decimal digits. -/
def isDecimalDigit : Char → Bool :=
  Text.isDigitOf 10

/-- Whether every underscore of a run stands between digits. The first argument says whether a
digit stands in front of the run. -/
def isSeparatedAfter (isDigit : Char → Bool) : Bool → List Char → Bool
  | _, [] => true
  | before, c :: cs =>
    if c = '_' then before && cs.head?.any isDigit && isSeparatedAfter isDigit false cs
    else isSeparatedAfter isDigit (isDigit c) cs

/-- Whether the underscores of a run separate digits, so that none of them starts it, follows its
sign or ends it. -/
def isSeparated (isDigit : Char → Bool) (run : List Char) : Bool :=
  isSeparatedAfter isDigit false run

/-- A run without its underscores. -/
def withoutUnderscores (run : List Char) : List Char :=
  run.filter (· ≠ '_')

/-- A run without its sign, and whether the sign is a minus. -/
def splitSign (run : List Char) : Bool × List Char :=
  match run with
  | '-' :: rest => (true, rest)
  | '+' :: rest => (false, rest)
  | rest => (false, rest)

/-- The number that decimal digits and a sign spell. -/
def signed (negative : Bool) (digits : List Char) : Int :=
  if negative then -(Text.numberOf 10 digits : Int) else Text.numberOf 10 digits

/-! ### Integers -/

/-- The integer that the digits of a base spell after the mark of the base. Without any digits it
has no value. -/
def inBase? (base : Nat) (run : List Char) : Option Value :=
  let digits := withoutUnderscores run
  if digits.all (Text.isDigitOf base) && isSeparated (Text.isDigitOf 16) run then
    some (.integer (if digits.isEmpty then none else some (Text.numberOf base digits)))
  else none

/-- The integer that a run without a mark of a base spells. Digits and an underscore are enough to
tell an integer by; with other characters than digits after them it has no value. -/
def integer? (run : List Char) : Option Value :=
  let (negative, body) := splitSign run
  let rest := body.dropWhile isDecimalDigit
  let isInteger := !body.isEmpty && (rest.isEmpty || rest.head? == some '_')
  let hasIdleZero := body.length > 1 && body.head? == some '0'
  if isInteger && !hasIdleZero && isSeparated (Text.isDigitOf 16) run then
    let digits := withoutUnderscores body
    some (.integer (if digits.all isDecimalDigit then some (signed negative digits) else none))
  else none

/-! ### Floating point numbers -/

/-- A run cut at the first character of a kind. -/
def cutAt (isCut : Char → Bool) (run : List Char) : List Char × Option (List Char) :=
  match run.dropWhile (!isCut ·) with
  | [] => (run, none)
  | _ :: after => (run.takeWhile (!isCut ·), some after)

/-- The characters that start the power of ten of a number. -/
def isPowerMark (c : Char) : Bool :=
  c == 'e' || c == 'E'

/-- The digits of a part of a floating point number. -/
def digits? (part : List Char) : Option (List Char) :=
  let digits := withoutUnderscores part
  if !digits.isEmpty && digits.all isDecimalDigit then some digits else none

/-- The digits of a part in front of the point. None of them is an idle zero. -/
def wholeDigits? (part : List Char) : Option (List Char) := do
  let digits ← digits? part
  if digits.length > 1 ∧ part.head? = some '0' then none else some digits

/-- The floating point number that a run spells. -/
def real? (run : List Char) : Option Real := do
  let (negative, body) := splitSign run
  if body = "inf".toList then some (.infinite negative)
  else if body = "nan".toList then some .nan
  else
    let (mantissa, power) := cutAt isPowerMark body
    let (whole, fraction) := cutAt (· == '.') mantissa
    let wholes ← wholeDigits? whole
    let decimals ← match fraction with
      | none => some []
      | some part => digits? part
    let exponent ← match power with
      | none => some 0
      | some part =>
        let (negative, part) := splitSign part
        (digits? part).map (signed negative)
    if isSeparated isDecimalDigit run then
      some (.decimal negative (Text.numberOf 10 (wholes ++ decimals)) (exponent - decimals.length))
    else none

/-! ### Numbers of both kinds -/

/-- The number that a run spells. A point or a power of ten makes it a floating point number, but
for the digits of another base. -/
def number? (run : List Char) : Option Value :=
  match run with
  | '0' :: 'x' :: digits => inBase? 16 digits
  | '0' :: 'o' :: digits => inBase? 8 digits
  | '0' :: 'b' :: digits => inBase? 2 digits
  | run =>
    let body := (splitSign run).2
    let isReal := body == "inf".toList || body == "nan".toList ||
      body.any fun c => c == '.' || isPowerMark c
    if isReal then (real? run).map .real else integer? run

end ShaderReport.Toml
