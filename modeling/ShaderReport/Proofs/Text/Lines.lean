import Mathlib.Data.List.Basic
import ShaderReport.Proofs.Text.Blank
import ShaderReport.Text.Lines

/-!
# Lines and their breaks

A text is empty, or one line without a break, or a line, its line feed and a text again
(`lineInduction`).  `lines_of_not_mem` and `lines_break` say what the lines of such texts are.  What a
carriage return does at the end of a line is seen in the line alone and not in its trimmed text
(`trim_dropReturn`), so up to trimming it does not matter how the lines end
(`map_trim_lines_crlf`, `map_trim_lines_concat`) and what white space stands around them
(`map_trim_lines_pad`).
-/

namespace ShaderReport.Text

/-! ### The lines of a text -/

/-- A line without the carriage return that belongs to its line break. -/
def dropReturn (line : List Char) : List Char :=
  if line.getLast? = some '\r' then line.dropLast else line

theorem trim_dropReturn (line : List Char) : trim (dropReturn line) = trim line := by
  rw [dropReturn]
  split
  · next hlast =>
    obtain ⟨front, rfl⟩ := List.getLast?_eq_some_iff.mp hlast
    rw [List.dropLast_concat, trim_append (by decide)]
  · rfl

theorem dropReturn_concat (line : List Char) : dropReturn (line ++ ['\r']) = line := by
  rw [dropReturn, List.getLast?_concat, if_pos rfl, List.dropLast_concat]

theorem dropReturn_singleton {c : Char} (h : c ≠ '\r') : dropReturn [c] = [c] :=
  if_neg fun hlast => h (Option.some.inj hlast)

theorem dropReturn_cons (c d : Char) (cs : List Char) :
    dropReturn (c :: d :: cs) = c :: dropReturn (d :: cs) := by
  rw [dropReturn, dropReturn, List.getLast?_cons_cons]
  split <;> rfl

theorem lines_of_not_mem {line : List Char} (h : '\n' ∉ line) (hne : line ≠ []) :
    lines line = [line] := by
  induction line with
  | nil => exact absurd rfl hne
  | cons c cs ih =>
    obtain ⟨hc, hcs⟩ := not_or.mp (mt List.mem_cons.mpr h)
    have hhead : cs.head? ≠ some '\n' := fun heq => hcs (List.mem_of_head? heq)
    rw [lines, if_neg (Ne.symm hc), if_neg (fun hr => hhead hr.2)]
    cases cs with
    | nil => rfl
    | cons d ds => rw [ih hcs (List.cons_ne_nil d ds)]

theorem lines_break {line : List Char} (h : '\n' ∉ line) (rest : List Char) :
    lines (line ++ '\n' :: rest) = dropReturn line :: lines rest := by
  induction line with
  | nil => rfl
  | cons c cs ih =>
    obtain ⟨hc, hcs⟩ := not_or.mp (mt List.mem_cons.mpr h)
    rw [List.cons_append, lines, if_neg (Ne.symm hc), ih hcs]
    cases cs with
    | nil =>
      -- Only the last character of a line can be the carriage return of its break.
      by_cases hr : c = '\r'
      · subst hr
        rfl
      · rw [if_neg (fun h => hr h.1), dropReturn_singleton hr]
        rfl
    | cons d ds =>
      have hd : d ≠ '\n' := fun heq => hcs (heq ▸ List.mem_cons_self)
      rw [if_neg (fun h => hd (Option.some.inj h.2)), dropReturn_cons]

/-- Induction on the lines of a text. -/
@[elab_as_elim]
theorem lineInduction {motive : List Char → Prop} (nil : motive [])
    (last : ∀ line, '\n' ∉ line → line ≠ [] → motive line)
    (broken : ∀ line rest, '\n' ∉ line → motive rest → motive (line ++ '\n' :: rest))
    (s : List Char) : motive s := by
  induction hn : s.length using Nat.strong_induction_on generalizing s with
  | _ n ih =>
    by_cases hmem : '\n' ∈ s
    · obtain ⟨line, rest, rfl, hline⟩ := List.eq_append_cons_of_mem hmem
      refine broken line rest hline (ih rest.length ?_ rest rfl)
      simp only [List.length_append, List.length_cons] at hn
      omega
    · by_cases hs : s = []
      · exact hs ▸ nil
      · exact last s hmem hs

theorem lines_append_break (s t : List Char) :
    lines (s ++ '\n' :: t) = lines (s ++ ['\n']) ++ lines t := by
  induction s using lineInduction with
  | nil => rfl
  | last line h hne =>
    rw [lines_break h, lines_break h]
    rfl
  | broken line rest h ih =>
    rw [List.append_assoc, List.append_assoc, List.cons_append, List.cons_append, lines_break h,
      lines_break h, ih, List.cons_append]

/-! ### How lines end -/

/-- A text with a carriage return and a line feed in the place of every line feed. -/
def crlf (s : List Char) : List Char :=
  s.flatMap fun c => if c = '\n' then ['\r', '\n'] else [c]

theorem crlf_of_not_mem {line : List Char} (h : '\n' ∉ line) : crlf line = line := by
  induction line with
  | nil => rfl
  | cons c cs ih =>
    obtain ⟨hc, hcs⟩ := not_or.mp (mt List.mem_cons.mpr h)
    rw [crlf, List.flatMap_cons, if_neg (Ne.symm hc), ← crlf, ih hcs]
    rfl

theorem crlf_break {line : List Char} (h : '\n' ∉ line) (rest : List Char) :
    crlf (line ++ '\n' :: rest) = (line ++ ['\r']) ++ '\n' :: crlf rest := by
  rw [crlf, List.flatMap_append, ← crlf, crlf_of_not_mem h, List.append_assoc]
  rfl

/-- **Carriage returns before all line feeds do not matter** up to trimming. -/
theorem map_trim_lines_crlf (s : List Char) : (lines (crlf s)).map trim = (lines s).map trim := by
  induction s using lineInduction with
  | nil => rfl
  | last line h hne => rw [crlf_of_not_mem h]
  | broken line rest h ih =>
    have hreturn : '\n' ∉ line ++ ['\r'] := by simpa using h
    rw [crlf_break h, lines_break hreturn, lines_break h, List.map_cons, List.map_cons, ih,
      dropReturn_concat, trim_dropReturn]

/-- **A line feed at the end does not matter** up to trimming, where there is something to end. -/
theorem map_trim_lines_concat {s : List Char} (hne : s ≠ []) (hlast : s.getLast? ≠ some '\n') :
    (lines (s ++ ['\n'])).map trim = (lines s).map trim := by
  induction s using lineInduction with
  | nil => exact absurd rfl hne
  | last line h hline =>
    rw [lines_break h, lines_of_not_mem h hline, List.map_cons, trim_dropReturn]
    rfl
  | broken line rest h ih =>
    have hrest : rest ≠ [] := by
      rintro rfl
      exact hlast List.getLast?_concat
    obtain ⟨c, cs, rfl⟩ := List.exists_cons_of_ne_nil hrest
    rw [List.getLast?_append_cons, List.getLast?_cons_cons] at hlast
    rw [List.append_assoc, List.cons_append, lines_break h, lines_break h, List.map_cons,
      List.map_cons, ih hrest hlast]

/-! ### White space around lines -/

/-- A place in a text where a line stands, from its first character up to its line break. -/
structure IsLine (before line after : List Char) : Prop where
  starts : before = [] ∨ ∃ text, before = text ++ ['\n']
  whole : '\n' ∉ line
  ends : after = [] ∧ line ≠ [] ∨ (∃ rest, after = '\n' :: rest) ∨
    ∃ rest, after = '\r' :: '\n' :: rest

theorem IsLine.lines_append {before line after : List Char} (h : IsLine before line after)
    (t : List Char) : lines (before ++ t) = lines before ++ lines t := by
  rcases h.starts with rfl | ⟨text, rfl⟩
  · rfl
  · rw [List.append_assoc]
    exact lines_append_break text t

/-- Up to trimming, what follows a line does not depend on the line. -/
theorem IsLine.exists_rest {before line after : List Char} (h : IsLine before line after) :
    ∃ rest, ∀ l, '\n' ∉ l → (line ≠ [] → l ≠ []) →
      (lines (l ++ after)).map trim = trim l :: (lines rest).map trim := by
  rcases h.ends with ⟨rfl, hline⟩ | ⟨rest, rfl⟩ | ⟨rest, rfl⟩
  · refine ⟨[], ?_⟩
    intro l hl hne
    rw [List.append_nil, lines_of_not_mem hl (hne hline)]
    rfl
  · refine ⟨rest, ?_⟩
    intro l hl hne
    rw [lines_break hl, List.map_cons, trim_dropReturn]
  · refine ⟨rest, ?_⟩
    intro l hl hne
    have hreturn : '\n' ∉ l ++ ['\r'] := by simpa using hl
    have hsplit : l ++ '\r' :: '\n' :: rest = (l ++ ['\r']) ++ '\n' :: rest := by simp
    rw [hsplit, lines_break hreturn, List.map_cons, dropReturn_concat]

/-- **White space around a line does not matter** up to trimming, as long as it breaks no line. -/
theorem map_trim_lines_pad {before line after front back : List Char} (h : IsLine before line after)
    (hf : IsBlank front) (hb : IsBlank back) (hbreak : '\n' ∉ front ++ back) :
    (lines (before ++ (front ++ line ++ back) ++ after)).map trim =
      (lines (before ++ line ++ after)).map trim := by
  obtain ⟨rest, hrest⟩ := h.exists_rest
  have hpad : '\n' ∉ front ++ line ++ back := by
    have := h.whole
    simp_all
  have hne : line ≠ [] → front ++ line ++ back ≠ [] := by
    intro hline heq
    simp_all
  rw [List.append_assoc, List.append_assoc before, h.lines_append, h.lines_append, List.map_append,
    List.map_append, hrest _ hpad hne, hrest line h.whole id, trim_pad hf hb]

theorem exists_eq_dropReturn (line rest : List Char) :
    ∃ after, line ++ '\n' :: rest = dropReturn line ++ after ∧
      ((∃ rest, after = '\n' :: rest) ∨ ∃ rest, after = '\r' :: '\n' :: rest) := by
  by_cases hlast : line.getLast? = some '\r'
  · obtain ⟨front, rfl⟩ := List.getLast?_eq_some_iff.mp hlast
    exact ⟨'\r' :: '\n' :: rest, by rw [dropReturn_concat]; simp, Or.inr ⟨rest, rfl⟩⟩
  · exact ⟨'\n' :: rest, by rw [dropReturn, if_neg hlast], Or.inl ⟨rest, rfl⟩⟩

theorem mem_of_mem_dropReturn {c : Char} {line : List Char} (h : c ∈ dropReturn line) :
    c ∈ line := by
  rw [dropReturn] at h
  split at h
  · exact (List.dropLast_sublist line).mem h
  · exact h

/-- **Every line of a text stands in it as a line**, after the lines before it. -/
theorem exists_isLine {s line : List Char} {ls ms : List (List Char)}
    (h : lines s = ls ++ line :: ms) :
    ∃ before after, s = before ++ line ++ after ∧ lines before = ls ∧
      IsLine before line after := by
  induction s using lineInduction generalizing ls with
  | nil => exact absurd h.symm (by simp [lines])
  | last l hl hne =>
    rw [lines_of_not_mem hl hne] at h
    obtain ⟨rfl, hline⟩ | ⟨-, h⟩ := List.singleton_eq_append_iff.mp h
    · obtain ⟨rfl, rfl⟩ := List.cons.inj hline
      exact ⟨[], [], (List.append_nil _).symm, rfl, Or.inl rfl, hl, Or.inl ⟨rfl, hne⟩⟩
    · cases h
  | broken l rest hl ih =>
    rw [lines_break hl] at h
    cases ls with
    | nil =>
      -- It is the first line, and may have lost a carriage return to its break.
      obtain ⟨rfl, -⟩ := List.cons.inj h
      obtain ⟨after, hl', hends⟩ := exists_eq_dropReturn l rest
      exact ⟨[], after, by rw [List.nil_append, hl'], rfl, Or.inl rfl,
        fun hmem => hl (mem_of_mem_dropReturn hmem), Or.inr hends⟩
    | cons k ls =>
      obtain ⟨rfl, hrest⟩ := List.cons.inj h
      obtain ⟨before, after, rfl, rfl, hline⟩ := ih hrest
      refine ⟨l ++ '\n' :: before, after, by simp, lines_break hl before, Or.inr ?_, hline.whole,
        hline.ends⟩
      rcases hline.starts with rfl | ⟨text, rfl⟩
      · exact ⟨l, rfl⟩
      · exact ⟨l ++ '\n' :: text, by simp⟩

end ShaderReport.Text
