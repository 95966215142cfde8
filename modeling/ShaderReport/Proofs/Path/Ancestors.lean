import ShaderReport.Path

/-!
# The paths above a path

The paths above a path are listed up to a number of them that the length of the path gives.  A parent is
shorter than the path itself (`Path.length_lt_of_parent`), so that number is never reached, and the list is
the path, its parent, and so on to the end (`Path.ancestors_eq`).
-/

namespace ShaderReport

namespace Path

theorem length_dropTrailing_le (bs : Bytes) : (dropTrailing bs).length ≤ bs.length := by
  induction bs with
  | nil => exact Nat.le_refl 0
  | cons b bs ih =>
    rw [dropTrailing]
    split
    · exact Nat.le_succ_of_le ih
    · split
      · exact Nat.le_succ_of_le ih
      · exact Nat.le_refl _

theorem head?_dropTrailing (bs : Bytes) : (dropTrailing bs).head? ≠ some slash := by
  induction bs with
  | nil => simp [dropTrailing]
  | cons b bs ih =>
    rw [dropTrailing]
    split
    · exact ih
    · next hb =>
      split
      · exact ih
      · simpa using hb

/-- **A parent is shorter than the path.** -/
theorem length_lt_of_parent {p above : Path} (h : p.parent = some above) :
    above.bytes.length < p.bytes.length := by
  rw [parent] at h
  cases hback : dropTrailing p.bytes.reverse with
  | nil =>
    rw [hback] at h
    cases h
  | cons b bs =>
    have hb : b ≠ slash := by
      have := head?_dropTrailing p.bytes.reverse
      rw [hback] at this
      simpa using this
    have hle : bs.length + 1 ≤ p.bytes.length := by
      have := length_dropTrailing_le p.bytes.reverse
      rwa [hback, List.length_reverse] at this
    have hdrop : (b :: bs).dropWhile (· ≠ slash) = bs.dropWhile (· ≠ slash) :=
      List.dropWhile_cons_of_pos (by simpa using hb)
    simp only [hback, hdrop, List.isEmpty_cons, Bool.false_eq_true, if_false, Option.some.injEq] at h
    split at h
    · next hroot =>
      -- A path that is more than the root has more than one byte.
      subst h
      have habsolute : p.isAbsolute = true := (Bool.and_eq_true_iff.mp hroot).2
      obtain ⟨bytes⟩ := p
      match bytes with
      | [] => cases habsolute
      | [x] =>
        obtain rfl : x = slash := by simpa [isAbsolute] using habsolute
        cases hback
      | x :: y :: rest => simp
    · subst h
      have hsuffix := (List.dropWhile_suffix (l := bs) (· ≠ slash)).length_le
      have hshort := length_dropTrailing_le (bs.dropWhile (· ≠ slash))
      rw [List.length_reverse]
      omega

theorem ancestorsUpTo_congr {n m : Nat} {p : Path} (hn : p.bytes.length < n) (hm : p.bytes.length < m) :
    ancestorsUpTo n p = ancestorsUpTo m p := by
  induction n generalizing m p with
  | zero => cases hn
  | succ n ih =>
    cases m with
    | zero => cases hm
    | succ m =>
      rw [ancestorsUpTo, ancestorsUpTo]
      cases hparent : p.parent with
      | none => rfl
      | some above =>
        have hshorter := length_lt_of_parent hparent
        have habove : ancestorsUpTo n above = ancestorsUpTo m above := ih (by omega) (by omega)
        simp only [Option.map_some, habove]

/-- **The paths above a path are its parent and the paths above that**, as long as there is a parent. -/
theorem ancestors_eq (p : Path) : p.ancestors = p :: ((p.parent.map ancestors).getD []) := by
  rw [ancestors, ancestorsUpTo]
  cases hparent : p.parent with
  | none => rfl
  | some above =>
    have habove : ancestorsUpTo p.bytes.length above = above.ancestors :=
      ancestorsUpTo_congr (length_lt_of_parent hparent) (Nat.lt_succ_self _)
    simp only [Option.map_some, habove]

end Path

end ShaderReport
