import ShaderReport.Analysis.Basic
import ShaderReport.Text.Blank
import ShaderReport.Text.Lines

/-!
# Scanning

A line adds at most one finding to an analysis, and what it adds depends on its trimmed text alone.
Scanning a line counts it and adds its finding.
-/

namespace ShaderReport

/-- What a line tells of its source. -/
inductive Finding where
  | nothing
  | pass
  | entryPoint (name : String)
  | kernel (name : String)
  | keywordSet (set : KeywordSet)
  | materialKeywords (keywords : List String)
  | textureSlot
  deriving DecidableEq, Repr

namespace Finding

/-- What follows the given beginning of a text, if it begins so. -/
def after (start : String) (cs : List Char) : Option (List Char) :=
  if start.toList.isPrefixOf cs then some (cs.drop start.toList.length) else none

/-- The directives that declare keyword sets. -/
def keywordDirectives : List String :=
  ["multi_compile", "multi_compile_local", "shader_feature", "shader_feature_local"]

/-- What the words of a pragma tell. -/
def ofPragma : List String → Finding
  | [] => .nothing
  | directive :: arguments =>
    if directive = "vertex" ∨ directive = "fragment" then
      (arguments.head?.map .entryPoint).getD .nothing
    else if directive = "kernel" then
      (arguments.head?.map .kernel).getD .nothing
    else if directive ∈ keywordDirectives ∧ arguments ≠ [] then
      .keywordSet ⟨directive, arguments⟩
    else .nothing

/-- Whether what follows `Pass` leaves it a word of its own. -/
def opensPass (rest : List Char) : Bool :=
  match rest with
  | [] => true
  | c :: _ => c == ' ' || c == '\x7b' || c == '\t'

/-- The words of a text. -/
def wordsOf (cs : List Char) : List String :=
  (Text.words cs).map String.ofList

/-- What a trimmed line tells. -/
def ofTrimmed (cs : List Char) : Finding :=
  match after "#pragma" cs with
  | some rest => ofPragma (wordsOf rest)
  | none =>
    if (after "Pass" cs).any opensPass then .pass
    else match after "m_ShaderKeywords:" cs with
      | some rest => .materialKeywords (wordsOf rest)
      | none => if (after "m_Texture:" cs).isSome then .textureSlot else .nothing

/-- What a line tells. -/
def ofLine (line : List Char) : Finding :=
  ofTrimmed (Text.trim line)

end Finding

namespace Analysis

/-- Adds what a line tells. -/
def add (a : Analysis) : Finding → Analysis
  | .nothing => a
  | .pass => { a with passes := a.passes.succ }
  | .entryPoint name => { a with entryPoints := a.entryPoints ++ [name] }
  | .kernel name => { a with kernels := a.kernels ++ [name] }
  | .keywordSet set => { a with keywordSets := a.keywordSets ++ [set] }
  | .materialKeywords keywords => { a with materialKeywords := a.materialKeywords ++ keywords }
  | .textureSlot => { a with textureSlots := a.textureSlots.succ }

/-- Accounts for one more line. -/
def scanLine (a : Analysis) (line : List Char) : Analysis :=
  { a with lineCount := a.lineCount.succ }.add (Finding.ofLine line)

/-- Accounts for more lines, in order. -/
def scan (a : Analysis) (lines : List (List Char)) : Analysis :=
  lines.foldl scanLine a

/-- The analysis of a text. -/
def ofText (text : String) : Analysis :=
  empty.scan (Text.lines text.toList)

end Analysis

end ShaderReport
