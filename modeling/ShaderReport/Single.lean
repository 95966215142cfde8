/-!
# Numbers of single precision

A positive number of single precision has a significand of 24 binary digits and an exponent. A
quotient becomes the nearest such number, an even one of two. Its text has the fewest digits that
no other number of single precision is nearer to.
-/

namespace ShaderReport

/-- The number `significand * 2 ^ exponent`: zero, or a significand between 2^23 and 2^24. -/
structure Single where
  significand : Nat
  exponent : Int
  deriving DecidableEq, Repr

namespace Single

/-- The least significand that is not zero, two to the power of 23. -/
def leadingBit : Nat :=
  8388608

/-- The number zero. -/
def zero : Single :=
  ⟨0, 0⟩

/-- The number one. -/
def one : Single :=
  ⟨leadingBit, -23⟩

/-- A numerator and a denominator of a quotient times a power of two. -/
def scale (num den : Nat) (exponent : Int) : Nat × Nat :=
  (num <<< exponent.toNat, den <<< (-exponent).toNat)

/-- The whole number nearest to a quotient, an even one of two. -/
def roundQuotient (num den : Nat) : Nat :=
  let low := num / den
  let rest := num % den
  if 2 * rest < den ∨ (2 * rest = den ∧ low % 2 = 0) then low else low + 1

/-- The number nearest to a quotient. -/
def ofQuotient (num den : Nat) : Single :=
  if num = 0 ∨ den = 0 then zero
  else
    let guess : Int := num.log2 - den.log2 - 23
    let (n, d) := scale num den (-guess)
    let exponent := if n < d * leadingBit then guess - 1 else guess
    let (n, d) := scale num den (-exponent)
    let significand := roundQuotient n d
    if significand = 2 * leadingBit then ⟨leadingBit, exponent + 1⟩ else ⟨significand, exponent⟩

/-- The number as a numerator over a denominator. -/
def quotient (x : Single) : Nat × Nat :=
  scale x.significand 1 x.exponent

/-- The quotient of two whole numbers after each of them is taken to single precision. -/
def divide (num den : Nat) : Single :=
  let (a, b) := (ofQuotient num 1).quotient
  let (c, d) := (ofQuotient den 1).quotient
  ofQuotient (a * d) (b * c)

/-- The 32 bits of a number. -/
def bits (x : Single) : Nat :=
  if x.significand = 0 then 0
  else (x.exponent + 150).toNat * leadingBit + (x.significand - leadingBit)

/-- The least whole number with more decimal digits than the whole part of a quotient has, as a
power of ten; negative for quotients below one tenth. Looks no farther than the given number of
powers. -/
def magnitude (num den : Nat) : Nat → Int → Int
  | 0, p => p
  | n + 1, p =>
    let (a, b) := (num * Nat.pow 10 (-p).toNat, den * Nat.pow 10 p.toNat)
    if b ≤ a then magnitude num den n (p + 1)
    else if 10 * a < b then magnitude num den n (p - 1)
    else p

/-- Whether a decimal number is nearer to a number than to any other of single precision. All
numbers are given over a common denominator, with the number itself as `x` and the distance of its
two neighbours; of two equally near ones the number with an even significand counts. -/
def isNearest (even : Bool) (x below above decimal : Nat) : Bool :=
  if decimal ≤ x then 2 * (x - decimal) < below || (even && 2 * (x - decimal) == below)
  else 2 * (decimal - x) < above || (even && 2 * (decimal - x) == above)

/-- The digits of the shortest decimal number nearest to the quotient of `x` and `unit`, looking for
it among those with the given number of digits and then among longer ones. -/
def shortest (even : Bool) (x below above unit : Nat) (power : Int) : Nat → Nat → Nat × Nat
  | 0, k => (0, k)
  | n + 1, k =>
    -- the grid of decimal numbers with `k` digits, taken to whole numbers over a common denominator
    let step : Int := power - k
    let up := Nat.pow 10 (-step).toNat
    let grid := unit * Nat.pow 10 step.toNat
    let low := x * up / grid
    let fits := fun digits => isNearest even (x * up) (below * up) (above * up) (digits * grid)
    let lowIsNearer := 2 * (x * up - low * grid) < grid
    if fits low && (lowIsNearer || !fits (low + 1)) && low ≠ 0 then (low, k)
    else if fits (low + 1) then (low + 1, k)
    else shortest even x below above unit power n (k + 1)

/-- A positional decimal text out of digits and the place of the point among them. -/
def positional (digits : List Char) (point : Int) : List Char :=
  if point ≤ 0 then '0' :: '.' :: List.replicate (-point).toNat '0' ++ digits
  else if digits.length ≤ point.toNat then
    digits ++ List.replicate (point.toNat - digits.length) '0' ++ ['.', '0']
  else digits.take point.toNat ++ '.' :: digits.drop point.toNat

/-- A decimal text with a power of ten. -/
def exponential (digits : List Char) (point : Int) : List Char :=
  let fraction := digits.drop 1
  digits.take 1 ++ (if fraction.isEmpty then [] else '.' :: fraction) ++
    'e' :: (toString (point - 1)).toList

/-- The decimal text of a number: positional from one ten-thousandth up to 10^16. -/
def toText (x : Single) : String :=
  if x.significand = 0 then "0.0"
  else
    let (n, d) := x.quotient
    -- the number and the distances of its neighbours are doubled, so that half of one is whole
    let gap := (scale 1 1 x.exponent).1
    let below := if x.significand = leadingBit then gap else 2 * gap
    let power := magnitude n d 100 0
    let (number, k) := shortest (x.significand % 2 = 0) (2 * n) below (2 * gap) (2 * d) power 9 1
    let all := Nat.toDigits 10 number
    let point := power + all.length - k
    let digits := (all.reverse.dropWhile (· = '0')).reverse
    String.ofList
      (if -4 < point ∧ point ≤ 16 then positional digits point else exponential digits point)

end Single

end ShaderReport
