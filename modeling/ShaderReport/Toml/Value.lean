import ShaderReport.Limit

/-!
# TOML values

The values of TOML documents. What is asked of them here is little, so a date or a time keeps no
more than its spelling, and a number with a fraction or a power of ten keeps its digits.
-/

namespace ShaderReport.Toml

/-- A floating point number as it is written. -/
inductive Real where
  | decimal (negative : Bool) (digits : Nat) (exponent : Int)
  | infinite (negative : Bool)
  | nan
  deriving DecidableEq, Repr

/-- A value. An integer may be spelled in a way that tells what it is but not what it is worth. -/
inductive Value where
  | string (s : String)
  | integer (value : Option Int)
  | real (x : Real)
  | boolean (b : Bool)
  | dateTime (spelling : String)
  | array (items : List Value)
  | table (members : List (String × Value))
  deriving Repr, Inhabited

/-- Whether a floating point number of 64 bits comes near a number. Zeros and numbers whose size is
out of the question are told by the number of their digits. -/
def Real.isWithinReach : Real → Bool
  | .decimal _ digits exponent =>
    let magnitude := (Nat.toDigits 10 digits).length + exponent
    digits = 0 || magnitude < 309 ||
      (magnitude < 400 &&
        digits * Nat.pow 10 exponent.toNat < Limit.floating * Nat.pow 10 (-exponent).toNat)
  | _ => true

namespace Value

mutual

/-- Whether all integers of a value are worth something between the given ones, and all its other
numbers within reach. -/
def isWithin (low high : Int) : Value → Bool
  | .integer value => value.any fun n => low ≤ n && n ≤ high
  | .real x => x.isWithinReach
  | .array items => areWithin low high items
  | .table members => membersAreWithin low high members
  | _ => true

/-- The same of all the items of an array. -/
def areWithin (low high : Int) : List Value → Bool
  | [] => true
  | v :: vs => isWithin low high v && areWithin low high vs

/-- The same of all the members of a table. -/
def membersAreWithin (low high : Int) : List (String × Value) → Bool
  | [] => true
  | (_, v) :: ms => isWithin low high v && membersAreWithin low high ms

end

end Value

end ShaderReport.Toml
