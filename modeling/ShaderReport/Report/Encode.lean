import ShaderReport.Json.Printer
import ShaderReport.Report.Basic

/-!
# Writing reports

A report is written as one object: its own members, its status among them, followed by the members
of its analysis. The only report that cannot be written is one whose asset path is not text.
-/

namespace ShaderReport

open Json (Value)

/-- The word for a kind of assets. -/
def AssetKind.tag : AssetKind → String
  | .shader => "shader"
  | .computeShader => "compute-shader"
  | .material => "material"

/-- A path that cannot be written as text. -/
inductive PathError where
  | notText
  deriving DecidableEq, Repr

/-- What is said of a path that cannot be written. -/
def PathError.message : PathError → String
  | .notText => "path contains invalid UTF-8 characters"

/-- The text of a path. -/
def Path.toText (p : Path) : Except PathError String :=
  match p.text? with
  | some s => .ok s
  | none => .error .notText

/-- A count as a value. -/
def Count.toJson (n : Count) : Value :=
  .ofNat n.val

/-- A keyword set as a value. -/
def KeywordSet.toJson (s : KeywordSet) : Value :=
  .object [("directive", .string s.directive), ("keywords", .ofStrings s.keywords)]

/-- The members that state an analysis. -/
def Analysis.members (a : Analysis) : List (String × Value) :=
  [("line-count", a.lineCount.toJson),
   ("passes", a.passes.toJson),
   ("entry-points", .ofStrings a.entryPoints),
   ("kernels", .ofStrings a.kernels),
   ("keyword-sets", .array (a.keywordSets.map KeywordSet.toJson)),
   ("material-keywords", .ofStrings a.materialKeywords),
   ("texture-slots", a.textureSlots.toJson)]

/-- The members that state a status. -/
def Status.members : Status → List (String × Value)
  | .succeeded => [("status", .string "succeeded")]
  | .failed error => [("status", .string "failed"), ("error", .string error)]

namespace Report

/-- A report as a value. -/
def toJson (r : Report) : Except PathError Value :=
  r.asset.toText.map fun asset =>
    .object
      ([("asset", .string asset), ("asset-kind", .string r.assetKind.tag),
        ("build-target", .string r.target.name)] ++ r.status.members ++
        ("variant-count", r.variantCount.toJson) :: r.analysis.members)

/-- The laid out text of a report. -/
def toPretty (r : Report) : Except PathError String :=
  r.toJson.map Value.toPretty

/-- The compact text of a report. -/
def toCompact (r : Report) : Except PathError String :=
  r.toJson.map Value.toCompact

end Report

end ShaderReport
