import ShaderReport.Job.Source
import ShaderReport.Proofs.Asset.Grammar

/-!
# Names of reports

A report is named after its asset and its target.  For assets whose names are text the name of the
report tells the name of the asset (`reportName_injective`), and so does its path
(`reportPath_injective`).  It is never the name of an asset (`ofPath_reportName`).
-/

namespace ShaderReport

theorem exists_name {path : Path} {asset : Asset} (ha : Asset.ofPath path = .ok asset)
    (ht : ∃ text, path = .ofString text) :
    ∃ name, path.fileName = some (Utf8.encode name) ∧ Utf8.encode name ≠ [] ∧
      slash ∉ Utf8.encode name := by
  obtain ⟨text, htext⟩ := ht
  have htext' : path.text? = some text := htext ▸ Utf8.decode?_encode text
  obtain ⟨stem, hf⟩ := exists_stem ha
  have hn := Path.mem_names_of_fileName hf
  obtain ⟨name, hname⟩ := Path.names_text htext' hn
  rw [hname] at hf hn
  exact ⟨name, hf, Path.of_mem_names hn⟩

/-- The name of the report of an asset with the given name. -/
def reportName (asset target : String) : String :=
  asset ++ "." ++ target ++ ".json"

theorem reportPath_eq {asset : Asset} {name : String}
    (h : asset.path.fileName = some (Utf8.encode name)) (dir : Path) (target : BuildTarget) :
    reportPath dir asset target = dir.join ⟨Utf8.encode (reportName name target.name)⟩ := by
  simp only [reportPath, h, Utf8.decodeLossy_encode, reportName]
  rfl

theorem reportName_injective {asset asset' target : String}
    (h : Utf8.encode (reportName asset target) = Utf8.encode (reportName asset' target)) :
    asset = asset' := by
  have h' := congrArg String.toList (Utf8.encode_injective h)
  simp only [reportName, String.toList_append, List.append_assoc] at h'
  exact String.toList_inj.mp (List.append_cancel_right h')

/-- Reports of assets with other names go to other paths, whatever the name of the target. -/
theorem reportPath_injective {asset asset' : Asset} {name name' : String} {dir : Path}
    {target : BuildTarget} (hf : asset.path.fileName = some (Utf8.encode name))
    (hf' : asset'.path.fileName = some (Utf8.encode name')) (hne : Utf8.encode name ≠ [])
    (hs : slash ∉ Utf8.encode name) (hne' : Utf8.encode name' ≠ []) (hs' : slash ∉ Utf8.encode name')
    (h : reportPath dir asset target = reportPath dir asset' target) : name = name' := by
  -- A target may have a slash in its name, but the name of the asset comes first.
  have hrelative : ∀ name, Utf8.encode name ≠ [] → slash ∉ Utf8.encode name →
      (Path.mk (Utf8.encode (reportName name target.name))).isAbsolute = false := by
    intro name hne hs
    rw [reportName, String.append_assoc, String.append_assoc, Utf8.encode_append]
    exact Path.isAbsolute_append hne hs _
  rw [reportPath_eq hf, reportPath_eq hf'] at h
  have hjoin := Path.join_injective (hrelative name hne hs) (hrelative name' hne' hs') h
  exact reportName_injective (congrArg Path.bytes hjoin)

/-- That the names are text is needed. -/
example : reportPath ⟨[]⟩ ⟨.material, ⟨0xFF :: Utf8.encode ".mat"⟩⟩ .offline =
    reportPath ⟨[]⟩ ⟨.material, ⟨0xFE :: Utf8.encode ".mat"⟩⟩ .offline := by
  decide +kernel

theorem encode_reportName (asset target : String) :
    Utf8.encode (reportName asset target) =
      Utf8.encode (asset ++ "." ++ target) ++ dot :: Utf8.encode "json" := by
  rw [reportName, Utf8.encode_append, show Utf8.encode ".json" = dot :: Utf8.encode "json" from rfl]

theorem isName_reportName {asset target : String} (ha : slash ∉ Utf8.encode asset)
    (ht : '/' ∉ target.toList) : IsName (Utf8.encode (reportName asset target)) := by
  have hlen : 5 ≤ (Utf8.encode (reportName asset target)).length := by
    rw [encode_reportName, List.length_append, List.length_cons,
      show (Utf8.encode "json").length = 4 from rfl]
    omega
  have hslash : slash ∉ Utf8.encode (reportName asset target) := by
    simp only [reportName, Utf8.encode_append, List.mem_append, not_or]
    refine ⟨⟨⟨ha, by decide⟩, ?_⟩, by decide⟩
    intro hmem
    exact ht (Utf8.mem_of_mem_encode (by decide) hmem)
  refine ⟨?_, hslash, ?_, ?_⟩ <;>
    · intro h
      rw [h] at hlen
      revert hlen
      decide

theorem ofPath_json {path : Path} {before : Bytes}
    (h : path.fileName = some (before ++ dot :: Utf8.encode "json")) :
    Asset.ofPath path = .error ⟨path⟩ := by
  refine ofPath_eq_error_iff.mpr ⟨rfl, ?_⟩
  intro kind hok
  obtain ⟨stem, hstem⟩ := exists_stem hok
  have hjson := Option.some.inj (hstem.symm.trans h)
  -- A name has one last dot, so the extension would be that of a report.
  have hsplit := splitAtLastDot_eq_some_iff.mpr ⟨hjson.symm, kind.dot_notMem_extension⟩
  rw [splitAtLastDot_eq_some_iff.mpr ⟨rfl, by decide⟩] at hsplit
  have hext : Utf8.encode "json" = Utf8.encode kind.extension :=
    congrArg Prod.snd (Option.some.inj hsplit)
  revert hext
  cases kind <;> decide

/-- **No report has the name of an asset.** -/
theorem ofPath_reportName {path : Path} {asset target : String}
    (h : path.fileName = some (Utf8.encode (reportName asset target))) :
    Asset.ofPath path = .error ⟨path⟩ := by
  rw [encode_reportName] at h
  exact ofPath_json h

end ShaderReport
