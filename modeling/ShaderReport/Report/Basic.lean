import ShaderReport.Analysis.Basic
import ShaderReport.Asset
import ShaderReport.BuildTarget

/-!
# Reports

A report states the analysis of one asset for one build target, and whether it went through.
-/

namespace ShaderReport

/-- Whether an analysis went through. -/
inductive Status where
  | succeeded
  | failed (error : String)
  deriving DecidableEq, Repr

/-- The report of one asset for one target. -/
structure Report where
  asset : Path
  assetKind : AssetKind
  target : BuildTarget
  status : Status
  variantCount : Count
  analysis : Analysis
  deriving DecidableEq, Repr

namespace Report

/-- The report of an asset with a given analysis. -/
def ofAnalysis (asset : Asset) (target : BuildTarget) (status : Status) (analysis : Analysis) :
    Report :=
  ⟨asset.path, asset.kind, target, status, analysis.variantCount, analysis⟩

/-- Whether the analysis went through. -/
def hasSucceeded (r : Report) : Bool :=
  r.status = .succeeded

end Report

end ShaderReport
