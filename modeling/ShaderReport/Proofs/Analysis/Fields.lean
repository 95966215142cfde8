import Mathlib.Data.List.Infix
import ShaderReport.Proofs.Analysis.Combine
import ShaderReport.Proofs.Text.Blank

/-!
# Each field by itself

A line is put to the tests of scanning one after the other, and the first that it passes says what it
adds.  `Analysis.byFields` tells each field without the tests of the others: `byFields_singleton` says
that it tells the same of one line.  The order of the tests does not matter, since no line begins with
two of their texts (`remainder?_eq_none`).  Both sides put lines together in the same way
(`byFields_append`), which gives all lines (`scan_by_fields`).
-/

namespace ShaderReport.Analysis

open Finding (wordsOf ofPragma)

/-! ### What the fields ask of a line -/

/-- What follows a text that the trimmed line begins with. -/
def remainder? (start : String) (line : List Char) : Option (List Char) :=
  (Text.trim line).dropPrefix? start.toList

/-- The parts of a text between white space, without the empty ones. -/
def parts (cs : List Char) : List String :=
  ((cs.splitOnP Text.isBlank).filter (· ≠ [])).map String.ofList

/-- Whether a line opens a pass: `Pass` alone, or with a blank, a tab or a brace right after it. -/
def isPass (line : List Char) : Bool :=
  (remainder? "Pass" line).any fun rest => rest.head?.all (· ∈ [' ', '\t', '\x7b'])

def isTextureSlot (line : List Char) : Bool :=
  (remainder? "m_Texture:" line).isSome

def keywordsOf (line : List Char) : List String :=
  ((remainder? "m_ShaderKeywords:" line).map parts).getD []

/-- The directive of a pragma followed by its arguments.  No other line has any. -/
def pragma (line : List Char) : List String :=
  ((remainder? "#pragma" line).map parts).getD []

/-- The first argument of a pragma with one of the given directives. -/
def argument? (directives : List String) : List String → Option String
  | directive :: argument :: _ => if directive ∈ directives then some argument else none
  | _ => none

/-- The keyword set of a pragma that declares one, with one keyword at least. -/
def keywordSet? : List String → Option KeywordSet
  | directive :: keyword :: keywords =>
    if directive ∈ ["multi_compile", "multi_compile_local", "shader_feature",
      "shader_feature_local"] then some ⟨directive, keyword :: keywords⟩ else none
  | _ => none

/-- The analysis of lines, each field by itself. -/
def byFields (lines : List (List Char)) : Analysis where
  lineCount := .clamp lines.length
  passes := .clamp (lines.countP isPass)
  entryPoints := lines.filterMap fun line => argument? ["vertex", "fragment"] (pragma line)
  kernels := lines.filterMap fun line => argument? ["kernel"] (pragma line)
  keywordSets := lines.filterMap fun line => keywordSet? (pragma line)
  materialKeywords := lines.flatMap keywordsOf
  textureSlots := .clamp (lines.countP isTextureSlot)

theorem byFields_append (ls ms : List (List Char)) :
    byFields (ls ++ ms) = (byFields ls).combine (byFields ms) := by
  simp only [byFields, combine, List.length_append, List.countP_append, List.filterMap_append,
    List.flatMap_append, Count.clamp_add]

/-! ### The tests of a line -/

theorem remainder?_eq_some_iff {start : String} {line rest : List Char} :
    remainder? start line = some rest ↔ Text.trim line = start.toList ++ rest := by
  rw [remainder?, List.dropPrefix?_eq_some_iff]
  constructor
  · rintro ⟨p, heq, hp⟩
    rw [heq, eq_of_beq hp]
  · intro heq
    exact ⟨start.toList, heq, beq_self_eq_true _⟩

theorem after_trim (start : String) (line : List Char) :
    Finding.after start (Text.trim line) = remainder? start line := by
  rw [Finding.after]
  by_cases h : start.toList.isPrefixOf (Text.trim line)
  · obtain ⟨rest, hrest⟩ := List.isPrefixOf_iff_prefix.mp h
    rw [if_pos h, remainder?_eq_some_iff.mpr hrest.symm, ← hrest, List.drop_left]
  · rw [if_neg h, eq_comm, Option.eq_none_iff_forall_ne_some]
    intro rest hrest
    exact h (List.isPrefixOf_iff_prefix.mpr ⟨rest, (remainder?_eq_some_iff.mp hrest).symm⟩)

theorem remainder?_eq_none {start : String} {line rest : List Char}
    (h : remainder? start line = some rest) (other : String)
    (hapart : ¬ start.toList <+: other.toList ∧ ¬ other.toList <+: start.toList) :
    remainder? other line = none := by
  by_contra hne
  obtain ⟨rest', hrest'⟩ := Option.ne_none_iff_exists'.mp hne
  have hstart : start.toList <+: Text.trim line := ⟨rest, (remainder?_eq_some_iff.mp h).symm⟩
  have hother : other.toList <+: Text.trim line := ⟨rest', (remainder?_eq_some_iff.mp hrest').symm⟩
  rcases List.prefix_or_prefix_of_prefix hstart hother with hp | hp
  · exact hapart.1 hp
  · exact hapart.2 hp

theorem wordsOf_eq_parts (cs : List Char) : wordsOf cs = parts cs := by
  rw [wordsOf, Text.words_eq_splitOnP, parts]

theorem add_ofPragma (a : Analysis) (words : List String) :
    a.add (ofPragma words) = { a with
      entryPoints := a.entryPoints ++ (argument? ["vertex", "fragment"] words).toList
      kernels := a.kernels ++ (argument? ["kernel"] words).toList
      keywordSets := a.keywordSets ++ (keywordSet? words).toList } := by
  match words with
  | [] => simp [ofPragma, add, argument?, keywordSet?]
  | [directive] => simp [ofPragma, add, argument?, keywordSet?]
  | directive :: argument :: arguments =>
    by_cases hentry : directive = "vertex" ∨ directive = "fragment"
    · rcases hentry with rfl | rfl <;> simp [ofPragma, add, argument?, keywordSet?]
    by_cases hkernel : directive = "kernel"
    · subst hkernel
      simp [ofPragma, add, argument?, keywordSet?]
    by_cases hset : directive ∈ Finding.keywordDirectives <;>
      simp_all [ofPragma, add, argument?, keywordSet?, Finding.keywordDirectives]

theorem any_opensPass (line : List Char) :
    (remainder? "Pass" line).any Finding.opensPass = isPass line := by
  have hopens : ∀ rest, Finding.opensPass rest = rest.head?.all (· ∈ [' ', '\t', '\x7b']) := by
    intro rest
    cases rest with
    | nil => rfl
    | cons c rest => grind [Finding.opensPass]
  rw [isPass, funext hopens]

/-- **What a line tells is asked for by one field at most**, a pragma by those of its words. -/
theorem ofLine_cases (line : List Char) :
    (Finding.ofLine line = ofPragma (pragma line) ∧
      isPass line = false ∧ keywordsOf line = [] ∧ isTextureSlot line = false) ∨
    (Finding.ofLine line = .pass ∧ pragma line = [] ∧
      isPass line = true ∧ keywordsOf line = [] ∧ isTextureSlot line = false) ∨
    (Finding.ofLine line = .materialKeywords (keywordsOf line) ∧ pragma line = [] ∧
      isPass line = false ∧ isTextureSlot line = false) ∨
    (Finding.ofLine line = .textureSlot ∧ pragma line = [] ∧
      isPass line = false ∧ keywordsOf line = [] ∧ isTextureSlot line = true) := by
  simp only [Finding.ofLine, Finding.ofTrimmed, after_trim, wordsOf_eq_parts, any_opensPass]
  rw [← isTextureSlot]
  -- The tests in their order: the first that holds excludes those after it.
  cases hpragma : remainder? "#pragma" line with
  | some rest =>
    have hpass := remainder?_eq_none hpragma "Pass" (by decide)
    have hkeys := remainder?_eq_none hpragma "m_ShaderKeywords:" (by decide)
    have hslot := remainder?_eq_none hpragma "m_Texture:" (by decide)
    left
    simp [pragma, isPass, keywordsOf, isTextureSlot, hpragma, hpass, hkeys, hslot]
  | none =>
    have hnone : pragma line = [] := by simp [pragma, hpragma]
    cases hpass : isPass line with
    | true =>
      obtain ⟨rest, hrest, -⟩ := (Option.any_eq_true _ _).mp hpass
      have hkeys := remainder?_eq_none hrest "m_ShaderKeywords:" (by decide)
      have hslot := remainder?_eq_none hrest "m_Texture:" (by decide)
      simp [hnone, keywordsOf, isTextureSlot, hkeys, hslot]
    | false =>
      cases hkeys : remainder? "m_ShaderKeywords:" line with
      | some rest =>
        have hslot := remainder?_eq_none hkeys "m_Texture:" (by decide)
        simp [hnone, keywordsOf, isTextureSlot, hkeys, hslot]
      | none =>
        cases hslot : isTextureSlot line with
        | true => simp [hnone, keywordsOf, hkeys]
        | false => simp [hnone, keywordsOf, hkeys, ofPragma]

theorem filterMap_singleton {α β : Type} (f : α → Option β) (x : α) :
    [x].filterMap f = (f x).toList := by
  cases h : f x <;> simp [h]

/-- **One line tells in its fields what it adds.** -/
theorem byFields_singleton (line : List Char) : byFields [line] = empty.scanLine line := by
  simp only [byFields, filterMap_singleton, List.flatMap_singleton, List.countP_singleton]
  rw [scanLine]
  rcases ofLine_cases line with ⟨hl, hp, hk, ht⟩ | ⟨hl, hg, hp, hk, ht⟩ | ⟨hl, hg, hp, ht⟩ |
    ⟨hl, hg, hp, hk, ht⟩
  · rw [hl, add_ofPragma, hp, hk, ht]
    rfl
  · rw [hl, hg, hp, hk, ht]
    rfl
  · rw [hl, hg, hp, ht]
    rfl
  · rw [hl, hg, hp, hk, ht]
    rfl

/-- **All lines tell in their fields what scanning finds.** -/
theorem scan_eq_byFields (lines : List (List Char)) : empty.scan lines = byFields lines := by
  induction lines with
  | nil => rfl
  | cons line lines ih =>
    calc empty.scan (line :: lines) = (empty.scanLine line).combine (empty.scan lines) :=
          scan_append_eq_combine [line] lines
      _ = (byFields [line]).combine (byFields lines) := by rw [byFields_singleton, ih]
      _ = byFields (line :: lines) := (byFields_append [line] lines).symm

example : byFields ["Pass\t".toList, " #pragma vertex V W".toList, "PassThrough".toList] =
    { empty with lineCount := 3, passes := 1, entryPoints := ["V"] } := by
  decide

/-! ### What a line leaves as it is -/

/-- The fields of an analysis besides the number of lines. -/
inductive Field where
  | passes
  | entryPoints
  | kernels
  | keywordSets
  | materialKeywords
  | textureSlots
  deriving DecidableEq, Repr

/-- Whether two analyses hold the same in a field. -/
def AgreeOn (a b : Analysis) : Field → Prop
  | .passes => a.passes = b.passes
  | .entryPoints => a.entryPoints = b.entryPoints
  | .kernels => a.kernels = b.kernels
  | .keywordSets => a.keywordSets = b.keywordSets
  | .materialKeywords => a.materialKeywords = b.materialKeywords
  | .textureSlots => a.textureSlots = b.textureSlots

/-- The field that a finding goes to. -/
def fieldOf : Finding → Option Field
  | .nothing => none
  | .pass => some .passes
  | .entryPoint _ => some .entryPoints
  | .kernel _ => some .kernels
  | .keywordSet _ => some .keywordSets
  | .materialKeywords _ => some .materialKeywords
  | .textureSlot => some .textureSlots

theorem agreeOn_add (a : Analysis) {f : Finding} {field : Field} (h : fieldOf f ≠ some field) :
    AgreeOn a (a.add f) field := by
  cases f <;> cases field <;> simp_all [AgreeOn, add, fieldOf]

theorem agreeOn_scanLine (a : Analysis) {line : List Char} {field : Field}
    (h : fieldOf (Finding.ofLine line) ≠ some field) : AgreeOn a (a.scanLine line) field := by
  have hadd := agreeOn_add { a with lineCount := a.lineCount.succ } h
  cases field <;> exact hadd

theorem scanLine_trim (a : Analysis) (line : List Char) :
    a.scanLine (Text.trim line) = a.scanLine line := by
  rw [scanLine, scanLine, Finding.ofLine, Finding.ofLine, Text.trim_trim]

/-- **Scanning tells each field by itself, from wherever it starts.**  It adds to the analysis that
it starts from what it finds from the start, and there each field holds what the lines tell of it
alone.  A line goes to one field at most besides the number of lines, and which one it is, as all that
the line adds, depends on its trimmed text alone. -/
theorem scan_by_fields (a : Analysis) (lines : List (List Char)) :
    a.scan lines = a.combine (empty.scan lines) ∧
    empty.scan lines = byFields lines ∧
    (∃ goesTo : List Char → Option Field, ∀ (b : Analysis) (line : List Char) (field : Field),
      goesTo (Text.trim line) = some field ∨ AgreeOn b (b.scanLine line) field) ∧
    ∀ (b : Analysis) (line : List Char), b.scanLine line = b.scanLine (Text.trim line) := by
  refine ⟨scan_eq_combine a lines, scan_eq_byFields lines, ?_, ?_⟩
  · refine ⟨fun text => fieldOf (Finding.ofTrimmed text), ?_⟩
    intro b line field
    by_cases h : fieldOf (Finding.ofLine line) = some field
    · exact Or.inl h
    · exact Or.inr (agreeOn_scanLine b h)
  · intro b line
    exact (scanLine_trim b line).symm

end ShaderReport.Analysis
