import ShaderReport.Text.Digit

/-!
# TOML dates and times

The form of dates, of times of a day and of differences to universal time. Days must exist in their
months.
-/

namespace ShaderReport.Toml

/-- The number that exactly the given count of digits spell. -/
def fixedNumber (count : Nat) (ds : List Char) : Option Nat :=
  if ds.length = count ∧ ds.all Char.isDigit then some (Text.numberOf 10 ds) else none

/-- How many days a month has. -/
def daysOf (year month : Nat) : Nat :=
  if month = 2 then
    if year % 4 = 0 ∧ (year % 100 ≠ 0 ∨ year % 400 = 0) then 29 else 28
  else if month = 4 ∨ month = 6 ∨ month = 9 ∨ month = 11 then 30
  else 31

/-- Whether a run is a date, such as `1979-05-27`. -/
def isDate (run : List Char) : Bool :=
  match fixedNumber 4 (run.take 4), run.drop 4 with
  | some year, ['-', a, b, '-', c, d] =>
    match fixedNumber 2 [a, b], fixedNumber 2 [c, d] with
    | some month, some day =>
      1 ≤ month && month ≤ 12 && 1 ≤ day && day ≤ daysOf year month
    | _, _ => false
  | _, _ => false

/-- Whether a run is a part of a time below a bound. -/
def isBelow (bound : Nat) (run : List Char) : Bool :=
  (fixedNumber 2 run).any (· < bound)

/-- Whether a run is a time of a day, such as `07:32` or `07:32:00.5`. -/
def isTime (run : List Char) : Bool :=
  isBelow 24 (run.take 2) && (run.drop 2).head? == some ':' && isBelow 60 ((run.drop 3).take 2) &&
    match run.drop 5 with
    | [] => true
    | ':' :: a :: b :: rest =>
      isBelow 61 [a, b] &&
        match rest with
        | [] => true
        | '.' :: ds => !ds.isEmpty && ds.all Char.isDigit
        | _ => false
    | _ => false

/-- Whether a run is a difference to universal time, such as `Z` or `-07:00`. -/
def isOffset (run : List Char) : Bool :=
  match run with
  | [c] => c == 'Z' || c == 'z'
  | sign :: a :: b :: ':' :: rest =>
    (sign == '+' || sign == '-') && isBelow 24 [a, b] && isBelow 60 rest
  | _ => false

/-- Whether a run is a date, a time, or both, the latter perhaps with a difference to universal
time. -/
def isDateTime (run : List Char) : Bool :=
  isTime run || isDate run ||
    (isDate (run.take 10) &&
      match run.drop 10 with
      | sep :: rest =>
        let time := rest.takeWhile fun c => c.isDigit || c == ':' || c == '.'
        let offset := rest.drop time.length
        (sep == 'T' || sep == 't' || sep == ' ') && isTime time &&
          (offset.isEmpty || isOffset offset)
      | [] => false)

end ShaderReport.Toml
