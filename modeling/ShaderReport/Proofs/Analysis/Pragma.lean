import ShaderReport.Proofs.Analysis.Fields

/-!
# Pragmas and word boundaries

`Pass` opens a pass only where it stands as a word of its own (`scanLine_of_pass_running_on`).  For
`#pragma` nothing asks for that: its words are taken from whatever follows it.  So a text that runs on
after `#pragma` counts as a directive, and it tells something just when it is a directive with an
argument.  `keepsToWords_iff` says that scanning keeps to whole words on all other lines, and on no
more.

What a pragma tells is up to its words (`ofPragma_eq_nothing_iff`), and its first word begins where the
white space before it ends (`Text.exists_of_words_eq_cons`).
-/

namespace ShaderReport

namespace Text

theorem words_ne_nil {c : Char} (hc : isBlank c = false) (cs : List Char) : words (c :: cs) ≠ [] := by
  rw [words.eq_def]
  grind

theorem exists_of_words_eq_cons {cs w : List Char} {ws : List (List Char)} (h : words cs = w :: ws) :
    ∃ space rest, IsBlank space ∧ cs = space ++ (w ++ rest) ∧ ∀ c ∈ rest.head?, isBlank c := by
  induction cs generalizing w ws with
  | nil => cases h
  | cons c cs ih =>
    rw [words.eq_def] at h
    by_cases hc : isBlank c
    · simp only [hc, if_true] at h
      obtain ⟨space, rest, hspace, rfl, hrest⟩ := ih h
      exact ⟨c :: space, rest, List.forall_mem_cons.mpr ⟨hc, hspace⟩, rfl, hrest⟩
    simp only [hc] at h
    cases cs with
    | nil =>
      cases h
      exact ⟨[], [], by decide, rfl, by simp⟩
    | cons d ds =>
      by_cases hd : isBlank d
      · simp only [hd, if_true] at h
        cases h
        exact ⟨[], d :: ds, by decide, rfl, by simpa using hd⟩
      -- The word goes on with `d`, so it begins where the first word after `c` does.
      obtain ⟨v, vs, hv⟩ := List.exists_cons_of_ne_nil (words_ne_nil (by simpa using hd) ds)
      simp only [hd, hv] at h
      cases h
      obtain ⟨space, rest, hspace, heq, hrest⟩ := ih hv
      cases space with
      | nil => exact ⟨[], rest, by decide, by rw [heq]; rfl, hrest⟩
      | cons x space =>
        cases heq
        exact absurd (hspace d List.mem_cons_self) hd

end Text

namespace Analysis

open Finding (ofPragma keywordDirectives)

/-! ### The statement's words -/

/-- The directives that tell something of a source. -/
def directives : List String :=
  "vertex" :: "fragment" :: "kernel" :: keywordDirectives

/-- Whether a line is `#pragma`, white space, and then one of the directives as a whole word. -/
def IsPragma (line : List Char) : Prop :=
  ∃ space directive rest, space ≠ [] ∧ Text.IsBlank space ∧ directive ∈ directives ∧
    (∀ c ∈ rest.head?, Text.isBlank c) ∧
    Text.trim line = "#pragma".toList ++ (space ++ (directive.toList ++ rest))

/-- Whether a line begins with a text that goes on with something else than white space. -/
def RunsOn (start : String) (line : List Char) : Prop :=
  ∃ c rest, Text.isBlank c = false ∧ Text.trim line = start.toList ++ c :: rest

/-- Whether the second analysis has an entry point, a kernel or a keyword set that the first one has
not. -/
def Declares (a b : Analysis) : Prop :=
  b.entryPoints ≠ a.entryPoints ∨ b.kernels ≠ a.kernels ∨ b.keywordSets ≠ a.keywordSets

/-- Whether scanning a line recognises a pragma as a whole word only. -/
structure KeepsToWords (a : Analysis) (line : List Char) : Prop where
  declares : Declares a (a.scanLine line) → IsPragma line
  runs_on : RunsOn "#pragma" line → a.scanLine line = { a with lineCount := a.lineCount.succ }

/-! ### What pragmas tell -/

theorem ofPragma_eq_nothing_iff {words : List String} :
    ofPragma words = .nothing ↔
      ¬ ∃ directive argument arguments, words = directive :: argument :: arguments ∧
        directive ∈ directives := by
  match words with
  | [] => simp [ofPragma]
  | [directive] => simp [ofPragma]
  | directive :: argument :: arguments =>
    simp only [ofPragma, directives, List.mem_cons]
    grind

theorem declares_add_ofPragma (a : Analysis) {words : List String} (h : ofPragma words ≠ .nothing) :
    Declares a (a.add (ofPragma words)) := by
  obtain ⟨directive, argument, arguments, rfl, hd⟩ := not_not.mp (mt ofPragma_eq_nothing_iff.mpr h)
  rw [Declares, add_ofPragma]
  simp only [directives, keywordDirectives, List.mem_cons, List.not_mem_nil, or_false] at hd
  rcases hd with rfl | rfl | rfl | rfl | rfl | rfl | rfl <;> simp [argument?, keywordSet?]

theorem ofLine_of_remainder {line rest : List Char} (h : remainder? "#pragma" line = some rest) :
    Finding.ofLine line = ofPragma (pragma line) := by
  rw [Finding.ofLine, Finding.ofTrimmed, after_trim, h]
  simp only [wordsOf_eq_parts, pragma, h, Option.map_some, Option.getD_some]

theorem exists_remainder_of_declares {a : Analysis} {line : List Char}
    (h : Declares a (a.scanLine line)) :
    ∃ rest, remainder? "#pragma" line = some rest ∧ ofPragma (pragma line) ≠ .nothing := by
  unfold Declares scanLine at h
  rcases ofLine_cases line with ⟨hl, -⟩ | ⟨hl, -⟩ | ⟨hl, -⟩ | ⟨hl, -⟩ <;> rw [hl] at h
  · cases hr : remainder? "#pragma" line with
    | none => simp [pragma, hr, ofPragma, add] at h
    | some rest =>
      refine ⟨rest, rfl, ?_⟩
      intro hnothing
      simp [hnothing, add] at h
  all_goals simp [add] at h

theorem isPragma_of_parts {line rest : List Char} {directive : String} {arguments : List String}
    (hrest : remainder? "#pragma" line = some rest) (hruns : ¬ RunsOn "#pragma" line)
    (hwords : pragma line = directive :: arguments) (hd : directive ∈ directives) :
    IsPragma line := by
  have htrim := remainder?_eq_some_iff.mp hrest
  rw [pragma, hrest, Option.map_some, Option.getD_some, ← wordsOf_eq_parts] at hwords
  obtain ⟨w, ws, hw, rfl, -⟩ := List.map_eq_cons_iff.mp hwords
  cases rest with
  | nil => cases hw
  | cons c rest =>
    have hc : Text.isBlank c = true := by
      by_contra hc
      exact hruns ⟨c, rest, by simpa using hc, htrim⟩
    have hw' : Text.words rest = w :: ws := by
      rw [Text.words.eq_def] at hw
      simpa only [hc, if_true] using hw
    obtain ⟨space, tail, hspace, rfl, htail⟩ := Text.exists_of_words_eq_cons hw'
    refine ⟨c :: space, String.ofList w, tail, by simp, ?_, hd, htail, ?_⟩
    · exact List.forall_mem_cons.mpr ⟨hc, hspace⟩
    · rw [htrim, show (String.ofList w).toList = w from String.toList_ofList, List.cons_append]

theorem scanLine_of_nothing (a : Analysis) {line : List Char} (h : Finding.ofLine line = .nothing) :
    a.scanLine line = { a with lineCount := a.lineCount.succ } := by
  rw [scanLine, h]
  rfl

theorem scanLine_of_pass_running_on (a : Analysis) {line rest : List Char} {c : Char}
    (hline : Text.trim line = "Pass".toList ++ c :: rest) (hc : c ∉ [' ', '\t', '\x7b']) :
    a.scanLine line = { a with lineCount := a.lineCount.succ } := by
  have hrest := remainder?_eq_some_iff.mpr hline
  have hpass : isPass line = false := by
    rw [isPass, hrest]
    simpa using hc
  have hpragma := remainder?_eq_none hrest "#pragma" (by decide)
  have hkeys := remainder?_eq_none hrest "m_ShaderKeywords:" (by decide)
  have hslot := remainder?_eq_none hrest "m_Texture:" (by decide)
  refine scanLine_of_nothing a ?_
  simp only [Finding.ofLine, Finding.ofTrimmed, after_trim, hpragma, any_opensPass, hpass, hkeys,
    hslot]
  rfl

/-- **Scanning keeps to whole words unless a directive with an argument runs on after `#pragma`.**
Unlike that, a `Pass` that runs on never counts. -/
theorem keepsToWords_iff (a : Analysis) (line : List Char) :
    (KeepsToWords a line ↔ ¬ (RunsOn "#pragma" line ∧
      ∃ directive argument arguments, pragma line = directive :: argument :: arguments ∧
        directive ∈ directives)) ∧
    ∀ c rest, Text.trim line = "Pass".toList ++ c :: rest → c ∉ [' ', '\t', '\x7b'] →
      a.scanLine line = { a with lineCount := a.lineCount.succ } := by
  refine ⟨⟨?_, ?_⟩, fun c rest => scanLine_of_pass_running_on a⟩
  · rintro hkeeps ⟨hruns, hwords⟩
    obtain ⟨c, rest, -, htrim⟩ := id hruns
    have hline := ofLine_of_remainder (remainder?_eq_some_iff.mpr htrim)
    have hsome : ofPragma (pragma line) ≠ .nothing := fun h => ofPragma_eq_nothing_iff.mp h hwords
    have hdeclares := declares_add_ofPragma { a with lineCount := a.lineCount.succ } hsome
    rw [← hline, ← scanLine, hkeeps.runs_on hruns] at hdeclares
    simp [Declares] at hdeclares
  · intro hno
    constructor
    · intro hdeclares
      obtain ⟨rest, hrest, hsome⟩ := exists_remainder_of_declares hdeclares
      obtain ⟨directive, argument, arguments, hwords, hd⟩ :=
        not_not.mp (mt ofPragma_eq_nothing_iff.mpr hsome)
      have hruns : ¬ RunsOn "#pragma" line := fun hruns =>
        hno ⟨hruns, directive, argument, arguments, hwords, hd⟩
      exact isPragma_of_parts hrest hruns hwords hd
    · intro hruns
      obtain ⟨c, rest, -, htrim⟩ := id hruns
      refine scanLine_of_nothing a ?_
      rw [ofLine_of_remainder (remainder?_eq_some_iff.mpr htrim), ofPragma_eq_nothing_iff]
      exact fun hwords => hno ⟨hruns, hwords⟩

/-- A line with neither: the longer word is left alone. -/
theorem keepsToWords_passThrough :
    let line := " PassThrough = 1".toList
    Text.trim line = "Pass".toList ++ 'T' :: "hrough = 1".toList ∧ 'T' ∉ [' ', '\t', '\x7b'] ∧
      KeepsToWords empty line ∧ empty.scanLine line = { empty with lineCount := empty.lineCount.succ } := by
  intro line
  have htrim : Text.trim line = "Pass".toList ++ 'T' :: "hrough = 1".toList := by decide
  have hT : 'T' ∉ [' ', '\t', '\x7b'] := by decide
  obtain ⟨hkeeps, hpass⟩ := keepsToWords_iff empty line
  refine ⟨htrim, hT, hkeeps.mpr ?_, hpass _ _ htrim hT⟩
  rintro ⟨⟨c, rest, -, hpragma⟩, -⟩
  rw [htrim] at hpragma
  cases hpragma

theorem entryPoint_of_runsOn :
    let line := "#pragmavertex Vert".toList
    RunsOn "#pragma" line ∧ (empty.scanLine line).entryPoints = ["Vert"] ∧
      ¬ KeepsToWords empty line := by
  intro line
  have hruns : RunsOn "#pragma" line := ⟨'v', "ertex Vert".toList, by decide, by decide⟩
  have hentry : (empty.scanLine line).entryPoints = ["Vert"] := by decide
  refine ⟨hruns, hentry, ?_⟩
  intro hkeeps
  rw [hkeeps.runs_on hruns] at hentry
  cases hentry

end Analysis

end ShaderReport
