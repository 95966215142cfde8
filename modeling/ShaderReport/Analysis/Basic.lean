import ShaderReport.Count

/-!
# Analyses

What is known of a source once some of its lines were scanned: three counts, the names that its
lines declare, and the keyword sets that multiply its variants. The number of variants is the
product of what the keyword sets yield.
-/

namespace ShaderReport

/-- A set of keywords declared by one directive. -/
structure KeywordSet where
  directive : String
  keywords : List String
  deriving DecidableEq, Repr

/-- The number of variants that a set yields. A `shader_feature` with a single keyword also comes
without that keyword. -/
def KeywordSet.variants (s : KeywordSet) : Nat :=
  if s.keywords.length = 1 ∧ "shader_feature".toList.isPrefixOf s.directive.toList then 2
  else max s.keywords.length 1

/-- The results of scanning a source. -/
structure Analysis where
  lineCount : Count
  passes : Count
  entryPoints : List String
  kernels : List String
  keywordSets : List KeywordSet
  materialKeywords : List String
  textureSlots : Count
  deriving DecidableEq, Repr

namespace Analysis

/-- The analysis of no lines. -/
def empty : Analysis :=
  ⟨0, 0, [], [], [], [], 0⟩

instance : Inhabited Analysis := ⟨empty⟩

/-- The number of variants, at most the greatest count. -/
def variantCount (a : Analysis) : Count :=
  a.keywordSets.foldl (fun count set => count.mul set.variants) 1

/-- The analysis of two sources one after the other. -/
def combine (a b : Analysis) : Analysis where
  lineCount := a.lineCount.add b.lineCount
  passes := a.passes.add b.passes
  entryPoints := a.entryPoints ++ b.entryPoints
  kernels := a.kernels ++ b.kernels
  keywordSets := a.keywordSets ++ b.keywordSets
  materialKeywords := a.materialKeywords ++ b.materialKeywords
  textureSlots := a.textureSlots.add b.textureSlots

end Analysis

end ShaderReport
