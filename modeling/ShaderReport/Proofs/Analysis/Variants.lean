import Mathlib.Algebra.Group.Nat.Defs
import ShaderReport.Proofs.Analysis.Combine

/-!
# Counting variants

The number of variants stops at the greatest count with every keyword set.  That is the same as
multiplying without bound and stopping once at the end (`variantCount_eq`), since it does not matter
whether a factor has been stopped before (`Count.clamp_val_mul`).  What holds of products holds of the
number of variants after that: it does not depend on the order of the sets, and the variants of two
sources multiply (`variantCount_combine`).  Every set yields one variant at least
(`KeywordSet.variants_pos`), so more lines never make it less.
-/

namespace ShaderReport

/-! ### Products of counts -/

namespace Count

theorem mul_one (a : Count) : a.mul 1 = a := by
  rw [mul, Nat.mul_one, clamp_val]

theorem clamp_val_mul (m n : Nat) : clamp ((clamp m).val * n) = clamp (m * n) := by
  ext
  simp only [val_clamp]
  by_cases hm : m ≤ 18446744073709551615
  · rw [Nat.min_eq_left hm]
  · cases n with
    | zero => rfl
    | succ n =>
      -- Both products are beyond the greatest count, as one of their factors is.
      have hclamped : 18446744073709551615 ≤ 18446744073709551615 * (n + 1) :=
        Nat.le_mul_of_pos_right _ n.succ_pos
      have hfactor : m ≤ m * (n + 1) := Nat.le_mul_of_pos_right _ n.succ_pos
      rw [Nat.min_eq_right (show 18446744073709551615 ≤ m by omega), Nat.min_eq_right hclamped,
        Nat.min_eq_right (by omega)]

theorem mul_mul (a : Count) (m n : Nat) : (a.mul m).mul n = a.mul (m * n) := by
  rw [mul, mul, clamp_val_mul, Nat.mul_assoc, mul]

theorem clamp_mul (m n : Nat) : clamp (m * n) = (clamp m).mul (clamp n).val := by
  rw [mul, clamp_val_mul, Nat.mul_comm m, Nat.mul_comm m, clamp_val_mul]

theorem le_mul (a : Count) {n : Nat} (hn : 0 < n) : a.val ≤ (a.mul n).val := by
  rw [val_mul]
  exact Nat.le_min.mpr ⟨Nat.le_mul_of_pos_right _ hn, a.val_le⟩

end Count

/-! ### The variants of keyword sets -/

theorem KeywordSet.variants_pos (s : KeywordSet) : 0 < s.variants := by
  rw [KeywordSet.variants]
  split <;> omega

namespace Analysis

/-- The product of what keyword sets yield, without a bound. -/
def variantsOf (sets : List KeywordSet) : Nat :=
  (sets.map KeywordSet.variants).prod

theorem variantsOf_cons (set : KeywordSet) (sets : List KeywordSet) :
    variantsOf (set :: sets) = set.variants * variantsOf sets := by
  rw [variantsOf, List.map_cons, List.prod_cons, variantsOf]

theorem variantsOf_append (sets more : List KeywordSet) :
    variantsOf (sets ++ more) = variantsOf sets * variantsOf more := by
  rw [variantsOf, List.map_append, List.prod_append, variantsOf, variantsOf]

theorem variantsOf_perm {sets sets' : List KeywordSet} (h : sets.Perm sets') :
    variantsOf sets = variantsOf sets' :=
  (h.map _).prod_nat

theorem variantsOf_pos (sets : List KeywordSet) : 0 < variantsOf sets := by
  refine List.prod_pos_iff_forall_pos_nat.mpr ?_
  intro n hn
  obtain ⟨set, -, rfl⟩ := List.mem_map.mp hn
  exact set.variants_pos

theorem foldl_variants (count : Count) (sets : List KeywordSet) :
    sets.foldl (fun count set => count.mul set.variants) count = count.mul (variantsOf sets) := by
  induction sets generalizing count with
  | nil => exact (Count.mul_one count).symm
  | cons set sets ih => rw [List.foldl_cons, ih, Count.mul_mul, variantsOf_cons]

/-- **The number of variants is the product, stopped once.** -/
theorem variantCount_eq (a : Analysis) : a.variantCount = .clamp (variantsOf a.keywordSets) := by
  rw [variantCount, foldl_variants, Count.mul, Count.val_one, Nat.one_mul]

theorem variantCount_pos (a : Analysis) : 1 ≤ a.variantCount.val := by
  have := variantsOf_pos a.keywordSets
  rw [variantCount_eq, Count.val_clamp]
  omega

theorem variantCount_combine (a b : Analysis) :
    (a.combine b).variantCount = a.variantCount.mul b.variantCount.val := by
  rw [variantCount_eq, variantCount_eq a, variantCount_eq b, ← Count.clamp_mul, ← variantsOf_append]
  rfl

/-- **The number of variants is that of all combinations, up to the greatest count.**  It is the
product of what the keyword sets yield, whatever they are and in whatever order, so it is never zero.
Scanning more lines never makes it less, and the variants of two pieces of a source multiply. -/
theorem variantCount_of_sets (a : Analysis) :
    a.variantCount.val = min (Limit.unsigned - 1) (a.keywordSets.map KeywordSet.variants).prod ∧
    1 ≤ a.variantCount.val ∧
    (∀ sets, sets.Perm a.keywordSets →
      { a with keywordSets := sets }.variantCount = a.variantCount) ∧
    (∀ lines, a.variantCount.val ≤ (a.scan lines).variantCount.val) ∧
    ∀ ls ms, (empty.scan (ls ++ ms)).variantCount =
      (empty.scan ls).variantCount.mul (empty.scan ms).variantCount.val := by
  refine ⟨?_, variantCount_pos a, ?_, ?_, ?_⟩
  · rw [variantCount_eq, Count.val_clamp, Nat.min_comm]
    rfl
  · intro sets hperm
    rw [variantCount_eq, variantCount_eq, variantsOf_perm hperm]
  · intro lines
    rw [scan_eq_combine, variantCount_combine]
    exact Count.le_mul _ (variantCount_pos _)
  · intro ls ms
    rw [scan_append_eq_combine, variantCount_combine]

/-- A feature that may be off and three levels of fog, the other way round. -/
theorem variantCount_of_sets_foggy :
    let feature : KeywordSet := ⟨"shader_feature", ["GLOSS"]⟩
    let fog : KeywordSet := ⟨"multi_compile", ["_", "THIN", "THICK"]⟩
    let a : Analysis := { empty with keywordSets := [feature, fog] }
    [fog, feature].Perm a.keywordSets ∧
      { a with keywordSets := [fog, feature] }.variantCount = a.variantCount := by
  intro feature fog a
  have hperm : [fog, feature].Perm a.keywordSets := List.Perm.swap _ _ _
  exact ⟨hperm, (variantCount_of_sets a).2.2.1 _ hperm⟩

end Analysis

end ShaderReport
