import ShaderReport.Analysis.Scan

/-!
# Analyses one after the other

`Analysis.combine` joins the analyses of two sources: with the analysis of no lines it is a monoid
(`combine_assoc`, `empty_combine`, `combine_empty`).  A line adds to any analysis what it adds to that
of no lines (`scanLine_eq_combine`), so scanning from anywhere is scanning from the start and joining
(`scan_eq_combine`).  The counts stop at the greatest one on the way, which comes out the same as
stopping once at the end (`Count.add_assoc`).
-/

namespace ShaderReport

/-! ### Sums of counts -/

namespace Count

theorem zero_add (a : Count) : (0 : Count).add a = a := by
  have h := a.val_le
  ext
  simp only [val_add, val_zero]
  omega

theorem add_zero (a : Count) : a.add 0 = a := by
  have h := a.val_le
  ext
  simp only [val_add, val_zero]
  omega

theorem add_assoc (a b c : Count) : (a.add b).add c = a.add (b.add c) := by
  ext
  simp only [val_add]
  omega

theorem clamp_add (m n : Nat) : clamp (m + n) = (clamp m).add (clamp n) := by
  ext
  simp only [val_add, val_clamp]
  omega

end Count

namespace Analysis

/-! ### The monoid of analyses -/

@[simp] theorem empty_combine (a : Analysis) : empty.combine a = a := by
  simp only [combine, empty, Count.zero_add, List.nil_append]

@[simp] theorem combine_empty (a : Analysis) : a.combine empty = a := by
  simp only [combine, empty, Count.add_zero, List.append_nil]

theorem combine_assoc (a b c : Analysis) : (a.combine b).combine c = a.combine (b.combine c) := by
  simp only [combine, Count.add_assoc, List.append_assoc]

/-! ### Scanning -/

@[simp] theorem scan_nil (a : Analysis) : a.scan [] = a := rfl

theorem scan_cons (a : Analysis) (line : List Char) (lines : List (List Char)) :
    a.scan (line :: lines) = (a.scanLine line).scan lines := rfl

theorem scan_append (a : Analysis) (ls ms : List (List Char)) :
    a.scan (ls ++ ms) = (a.scan ls).scan ms := by
  simp [scan]

/-- What a finding adds does not depend on what was found before. -/
theorem combine_add (a b : Analysis) (f : Finding) : (a.combine b).add f = a.combine (b.add f) := by
  cases f <;> simp only [add, combine, Count.succ, Count.add_assoc, List.append_assoc]

theorem scanLine_eq_combine (a : Analysis) (line : List Char) :
    a.scanLine line = a.combine (empty.scanLine line) := by
  have hcount : { a with lineCount := a.lineCount.succ } =
      a.combine { empty with lineCount := empty.lineCount.succ } := by
    simp only [combine, empty, Count.succ, Count.zero_add, Count.add_zero, List.append_nil]
  rw [scanLine, scanLine, hcount, combine_add]

/-- **Scanning from an analysis adds to it what scanning from the start finds.** -/
theorem scan_eq_combine (a : Analysis) (lines : List (List Char)) :
    a.scan lines = a.combine (empty.scan lines) := by
  induction lines generalizing a with
  | nil => exact (combine_empty a).symm
  | cons line lines ih =>
    calc a.scan (line :: lines)
        = (a.scanLine line).combine (empty.scan lines) := ih _
      _ = a.combine ((empty.scanLine line).combine (empty.scan lines)) := by
        rw [scanLine_eq_combine, combine_assoc]
      _ = a.combine (empty.scan (line :: lines)) := by
        rw [← ih, ← scan_cons]

theorem scan_append_eq_combine (ls ms : List (List Char)) :
    empty.scan (ls ++ ms) = (empty.scan ls).combine (empty.scan ms) := by
  rw [scan_append, scan_eq_combine]

end Analysis

end ShaderReport
