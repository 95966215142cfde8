import ShaderReport.Limit

/-!
# Counts

A count stops at the greatest number of 64 bits instead of running over it.
-/

namespace ShaderReport

/-- A number below 2^64. -/
structure Count where
  val : Nat
  lt : val < Limit.unsigned
  deriving DecidableEq, Repr

namespace Count

/-- The greatest count. -/
def max : Count :=
  ⟨Limit.unsigned - 1, by decide⟩

/-- The count nearest to a number. -/
def clamp (n : Nat) : Count :=
  ⟨min n (Limit.unsigned - 1), Nat.lt_of_le_of_lt (Nat.min_le_right _ _) (by decide)⟩

instance : Inhabited Count := ⟨clamp 0⟩

instance {n : Nat} : OfNat Count n := ⟨clamp n⟩

/-- The sum, or the greatest count. -/
def add (a b : Count) : Count :=
  clamp (a.val + b.val)

/-- The product with a number, or the greatest count. -/
def mul (a : Count) (n : Nat) : Count :=
  clamp (a.val * n)

/-- The next count. -/
def succ (a : Count) : Count :=
  a.add 1

/-- The count before, if there is one. -/
def pred? (a : Count) : Option Count :=
  if a.val = 0 then none else some ⟨a.val - 1, Nat.lt_of_le_of_lt (Nat.sub_le _ _) a.lt⟩

/-- A number as a count, if it is one. -/
def ofNat? (n : Nat) : Option Count :=
  if h : n < Limit.unsigned then some ⟨n, h⟩ else none

/-- The digits of a count. -/
def toText (a : Count) : String :=
  toString a.val

@[ext] theorem ext {a b : Count} (h : a.val = b.val) : a = b := by
  cases a
  cases b
  simp_all

theorem val_le (a : Count) : a.val ≤ 18446744073709551615 :=
  Nat.le_of_lt_succ a.lt

@[simp] theorem val_clamp (n : Nat) : (clamp n).val = min n 18446744073709551615 := rfl

@[simp] theorem clamp_val (a : Count) : clamp a.val = a := by
  have h := a.val_le
  ext
  simp only [val_clamp]
  omega

@[simp] theorem val_zero : (0 : Count).val = 0 := rfl

@[simp] theorem val_one : (1 : Count).val = 1 := rfl

@[simp] theorem val_add (a b : Count) :
    (a.add b).val = min (a.val + b.val) 18446744073709551615 := rfl

@[simp] theorem val_mul (a : Count) (n : Nat) :
    (a.mul n).val = min (a.val * n) 18446744073709551615 := rfl

@[simp] theorem val_succ (a : Count) : a.succ.val = min (a.val + 1) 18446744073709551615 := rfl

theorem pred?_eq_none {a : Count} : a.pred? = none ↔ a.val = 0 := by
  simp [pred?]

theorem val_of_pred? {a b : Count} (h : a.pred? = some b) : a.val = b.val + 1 := by
  unfold pred? at h
  split at h
  · cases h
  · cases h
    simp only
    omega

@[simp] theorem ofNat?_val (a : Count) : ofNat? a.val = some a :=
  dif_pos a.lt

end Count

end ShaderReport
