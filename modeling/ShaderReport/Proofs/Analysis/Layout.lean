import ShaderReport.Proofs.Analysis.Fields
import ShaderReport.Proofs.Text.Lines

/-!
# The layout of a source

What a line adds depends on its trimmed text alone (`scan_map_trim`).  So two sources whose lines trim
to the same texts have the same analysis.  `scan_of_layout` says this of the line breaks of a source and
of the white space around its lines.
-/

namespace ShaderReport.Analysis

open Text (lines crlf IsBlank IsLine)

theorem scan_map_trim (a : Analysis) (ls : List (List Char)) :
    a.scan (ls.map Text.trim) = a.scan ls := by
  induction ls generalizing a with
  | nil => rfl
  | cons line ls ih => rw [List.map_cons, scan_cons, scan_cons, scanLine_trim, ih]

theorem scan_eq_of_map_trim {ls ms : List (List Char)} (h : ls.map Text.trim = ms.map Text.trim)
    (a : Analysis) : a.scan ls = a.scan ms := by
  rw [← scan_map_trim, h, scan_map_trim]

/-- **The analysis of a source does not depend on its layout.**  It is the same with a carriage return
before every line feed, with a line feed after the last line, and with white space around any line, as
long as that is not broken in two. -/
theorem scan_of_layout (a : Analysis) (source : List Char) :
    a.scan (lines (crlf source)) = a.scan (lines source) ∧
    (source ≠ [] → source.getLast? ≠ some '\n' →
      a.scan (lines (source ++ ['\n'])) = a.scan (lines source)) ∧
    (∀ front line back, IsBlank front → IsBlank back →
      a.scanLine (front ++ line ++ back) = a.scanLine line) ∧
    ∀ ls line ms, lines source = ls ++ line :: ms →
      ∃ before after, source = before ++ line ++ after ∧ lines before = ls ∧
        IsLine before line after ∧
        ∀ front back, IsBlank front → IsBlank back → '\n' ∉ front ++ back →
          a.scan (lines (before ++ (front ++ line ++ back) ++ after)) = a.scan (lines source) := by
  refine ⟨?_, ?_, ?_, ?_⟩
  · exact scan_eq_of_map_trim (Text.map_trim_lines_crlf source) a
  · intro hne hlast
    exact scan_eq_of_map_trim (Text.map_trim_lines_concat hne hlast) a
  · intro front line back hfront hback
    rw [← scanLine_trim, Text.trim_pad hfront hback, scanLine_trim]
  · intro ls line ms hlines
    obtain ⟨before, after, rfl, hbefore, hline⟩ := Text.exists_isLine hlines
    refine ⟨before, after, rfl, hbefore, hline, ?_⟩
    intro front back hfront hback hbreak
    exact scan_eq_of_map_trim (Text.map_trim_lines_pad hline hfront hback hbreak) a

/-- Two lines, the last of them without a break, and the kernel on it moved to the right. -/
theorem scan_of_layout_indented :
    let source := "Pass\r\n#pragma kernel K".toList
    let kernel := "#pragma kernel K".toList
    (source ≠ [] ∧ source.getLast? ≠ some '\n' ∧
      empty.scan (lines (source ++ ['\n'])) = empty.scan (lines source)) ∧
    (IsBlank ['\t'] ∧ IsBlank ['\r'] ∧
      empty.scanLine (['\t'] ++ kernel ++ ['\r']) = empty.scanLine kernel) ∧
    lines source = ["Pass".toList] ++ kernel :: [] ∧ '\n' ∉ ['\t'] ++ ['\r'] ∧
      ∃ before after, source = before ++ kernel ++ after ∧ lines before = ["Pass".toList] ∧
        empty.scan (lines (before ++ (['\t'] ++ kernel ++ ['\r']) ++ after)) =
          empty.scan (lines source) := by
  intro source kernel
  have hsource : source ≠ [] ∧ source.getLast? ≠ some '\n' := by decide
  have htab : IsBlank ['\t'] := by decide
  have hreturn : IsBlank ['\r'] := by decide
  have hlines : lines source = ["Pass".toList] ++ kernel :: [] := by decide
  have hbreak : '\n' ∉ ['\t'] ++ ['\r'] := by decide
  obtain ⟨-, hend, hline, hplace⟩ := scan_of_layout empty source
  refine ⟨⟨hsource.1, hsource.2, hend hsource.1 hsource.2⟩,
    ⟨htab, hreturn, hline _ kernel _ htab hreturn⟩, hlines, hbreak, ?_⟩
  obtain ⟨before, after, hsplit, hbefore, -, hpad⟩ := hplace _ _ _ hlines
  exact ⟨before, after, hsplit, hbefore, hpad _ _ htab hreturn hbreak⟩

end ShaderReport.Analysis
