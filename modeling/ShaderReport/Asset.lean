import ShaderReport.Path

/-!
# Assets

An asset is a shader, a compute shader or a material, named by its path. The extension of the path
decides which: `.shader`, `.compute` or `.mat`, in lower case.
-/

namespace ShaderReport

/-- The kinds of assets that reports are built of. -/
inductive AssetKind where
  | shader
  | computeShader
  | material
  deriving DecidableEq, Repr

/-- The kind as messages show it. -/
def AssetKind.noun : AssetKind → String
  | .shader => "shader"
  | .computeShader => "compute shader"
  | .material => "material"

/-- The extension of the assets of a kind. -/
def AssetKind.extension : AssetKind → String
  | .shader => "shader"
  | .computeShader => "compute"
  | .material => "mat"

/-- The kind of the assets with a given extension. -/
def AssetKind.ofExtension (ext : Bytes) : Option AssetKind :=
  [AssetKind.shader, .computeShader, .material].find? (Utf8.encode ·.extension == ext)

/-- An asset: what it is, and where it is. -/
structure Asset where
  kind : AssetKind
  path : Path
  deriving DecidableEq, Repr

/-- A path refused as an asset. -/
structure InvalidAsset where
  path : Path
  deriving DecidableEq, Repr

namespace Asset

/-- The asset at a path. -/
def ofPath (path : Path) : Except InvalidAsset Asset :=
  match path.extension.bind AssetKind.ofExtension with
  | some kind => .ok ⟨kind, path⟩
  | none => .error ⟨path⟩

/-- An asset as messages show it. -/
def display (a : Asset) : String :=
  s!"{a.kind.noun} '{a.path.display}'"

end Asset

/-- What is said of a path refused as an asset. -/
def InvalidAsset.message (e : InvalidAsset) : String :=
  s!"invalid asset '{e.path.display}': expected a `.shader`, `.compute` or `.mat` file"

end ShaderReport
