import Mathlib.Data.List.TakeWhile
import ShaderReport.Text.Blank

/-!
# Trimmed texts and words

A text is its trimmed text between white space (`exists_eq_trim`), and white space around a text does
not show in its trimmed text (`trim_pad`).  So trimming twice is trimming once (`trim_trim`).  The words
of a text are what it has between white space, without the empty parts (`words_eq_splitOnP`).
-/

namespace ShaderReport.Text

/-- Whether a text is white space only. -/
def IsBlank (cs : List Char) : Prop :=
  ∀ c ∈ cs, isBlank c

instance (cs : List Char) : Decidable (IsBlank cs) :=
  List.decidableBAll _ cs

theorem isBlank_append {cs ds : List Char} : IsBlank (cs ++ ds) ↔ IsBlank cs ∧ IsBlank ds :=
  List.forall_mem_append

theorem IsBlank.reverse {cs : List Char} (h : IsBlank cs) : IsBlank cs.reverse :=
  fun c hc => h c (List.mem_reverse.mp hc)

/-! ### Trimming -/

theorem trimStart_of_isBlank {cs : List Char} (h : IsBlank cs) : trimStart cs = [] :=
  List.dropWhile_eq_nil_iff.mpr h

theorem trimStart_pad {front : List Char} (h : IsBlank front) (cs : List Char) :
    trimStart (front ++ cs) = trimStart cs :=
  List.dropWhile_append_of_pos h

theorem trimEnd_pad {back : List Char} (h : IsBlank back) (cs : List Char) :
    trimEnd (cs ++ back) = trimEnd cs := by
  rw [trimEnd, List.reverse_append, List.dropWhile_append_of_pos h.reverse, trimEnd]

/-- **White space around a text does not show in its trimmed text.** -/
theorem trim_pad {front back : List Char} (hf : IsBlank front) (hb : IsBlank back) (cs : List Char) :
    trim (front ++ cs ++ back) = trim cs := by
  rw [List.append_assoc, trim, trimStart_pad hf]
  by_cases hcs : IsBlank cs
  · -- The text itself is white space, so nothing is left.
    rw [trim, trimStart_of_isBlank hcs, trimStart_of_isBlank (isBlank_append.mpr ⟨hcs, hb⟩)]
  · have hsome : ¬ (cs.dropWhile isBlank).isEmpty := by
      rwa [List.isEmpty_iff, List.dropWhile_eq_nil_iff]
    have hstart : trimStart (cs ++ back) = trimStart cs ++ back := by
      rw [trimStart, List.dropWhile_append, if_neg hsome, trimStart]
    rw [hstart, trimEnd_pad hb, trim]

theorem trim_append {back : List Char} (h : IsBlank back) (cs : List Char) :
    trim (cs ++ back) = trim cs :=
  trim_pad (show IsBlank [] by decide) h cs

theorem exists_eq_trimEnd (cs : List Char) : ∃ back, IsBlank back ∧ cs = trimEnd cs ++ back := by
  refine ⟨(cs.reverse.takeWhile isBlank).reverse, ?_, ?_⟩
  · intro c hc
    exact List.mem_takeWhile_imp (List.mem_reverse.mp hc)
  · rw [trimEnd, ← List.reverse_append, List.takeWhile_append_dropWhile, List.reverse_reverse]

theorem exists_eq_trim (cs : List Char) :
    ∃ front back, IsBlank front ∧ IsBlank back ∧ cs = front ++ trim cs ++ back := by
  obtain ⟨back, hback, htrim⟩ := exists_eq_trimEnd (trimStart cs)
  refine ⟨cs.takeWhile isBlank, back, ?_, hback, ?_⟩
  · intro c hc
    exact List.mem_takeWhile_imp hc
  · rw [List.append_assoc, trim, ← htrim, trimStart, List.takeWhile_append_dropWhile]

@[simp] theorem trim_trim (cs : List Char) : trim (trim cs) = trim cs := by
  obtain ⟨front, back, hfront, hback, heq⟩ := exists_eq_trim cs
  calc trim (trim cs) = trim (front ++ trim cs ++ back) := (trim_pad hfront hback _).symm
    _ = trim cs := by rw [← heq]

/-! ### Words -/

/-- **The words of a text are its parts between white space**, without the empty ones. -/
theorem words_eq_splitOnP (cs : List Char) : words cs = (cs.splitOnP isBlank).filter (· ≠ []) := by
  induction cs with
  | nil => rfl
  | cons c cs ih =>
    rw [words.eq_def, List.splitOnP_cons_eq_if_modifyHead]
    by_cases hc : isBlank c
    · simp only [hc, if_true, ih]
      rfl
    simp only [hc, ih]
    cases cs with
    | nil => rfl
    | cons d ds =>
      rw [List.splitOnP_cons_eq_if_modifyHead]
      by_cases hd : isBlank d
      · simp [hd]
      · have hne := List.splitOnP_ne_nil isBlank ds
        obtain ⟨part, parts, hparts⟩ := List.exists_cons_of_ne_nil hne
        simp [hd, hparts]

end ShaderReport.Text
