/-!
# Digits

The digits of the bases up to sixteen, in capital or small letters from ten on, and the numbers that
they spell.
-/

namespace ShaderReport.Text

/-- The value of a digit. -/
def digitValue? (c : Char) : Option Nat :=
  if '0' ≤ c ∧ c ≤ '9' then some (c.toNat - '0'.toNat)
  else if 'a' ≤ c ∧ c ≤ 'f' then some (c.toNat - 'a'.toNat + 10)
  else if 'A' ≤ c ∧ c ≤ 'F' then some (c.toNat - 'A'.toNat + 10)
  else none

/-- Whether a character is a digit of a base. -/
def isDigitOf (base : Nat) (c : Char) : Bool :=
  (digitValue? c).any (· < base)

/-- The number that digits of a base spell. -/
def numberOf (base : Nat) (digits : List Char) : Nat :=
  digits.foldl (fun n d => base * n + (digitValue? d).getD 0) 0

theorem numberOf_append (base : Nat) (ds : List Char) (d : Char) :
    numberOf base (ds ++ [d]) = base * numberOf base ds + (digitValue? d).getD 0 := by
  simp [numberOf]

theorem digitValue?_digitChar {d : Nat} (h : d < 16) :
    digitValue? (Nat.digitChar d) = some d := by
  have all : ∀ d < 16, digitValue? (Nat.digitChar d) = some d := by decide
  exact all d h

/-- The digits that a number is written with spell it. -/
theorem numberOf_toDigits (n : Nat) : numberOf 10 (Nat.toDigits 10 n) = n := by
  induction n using Nat.strongRecOn with
  | ind n ih =>
    by_cases h : n < 10
    · rw [Nat.toDigits_of_lt_base h]
      simp [numberOf, digitValue?_digitChar (show n < 16 by omega)]
    · rw [Nat.toDigits_of_base_le (by decide) (by omega), numberOf_append,
        ih (n / 10) (by omega), digitValue?_digitChar (by omega), Option.getD_some]
      omega

end ShaderReport.Text
