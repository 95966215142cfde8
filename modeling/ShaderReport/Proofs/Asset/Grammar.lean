import ShaderReport.Asset
import ShaderReport.Proofs.Path.Last

/-!
# Which paths are assets

A path is an asset of a kind just when its last component is some bytes, a dot and the extension of that
kind (`IsNamedAs`).  Nothing else of the path counts: not what stands in front of the last component, nor
the slashes and dots behind it.  `ofPath_eq_ok_iff` says so of the file name, and `ofPath_iff_isNamedAs` of
the bytes of the path.
-/

namespace ShaderReport

/-! ### Extensions -/

/-- **A name is cut at its last dot**: what stands behind it has none. -/
theorem splitAtLastDot_eq_some_iff {n before after : Bytes} :
    Path.splitAtLastDot n = some (before, after) ↔ n = before ++ dot :: after ∧ dot ∉ after := by
  have hsplit : n.reverse.takeWhile (· ≠ dot) ++ n.reverse.dropWhile (· ≠ dot) = n.reverse :=
    List.takeWhile_append_dropWhile
  have hafter : dot ∉ n.reverse.takeWhile (· ≠ dot) := by
    intro hmem
    simpa using List.all_eq_true.mp List.all_takeWhile dot hmem
  constructor
  · intro h
    unfold Path.splitAtLastDot at h
    split at h
    · cases h
    · next b rest hdrop =>
      have hb : b = dot := by
        have := List.head?_dropWhile_not (fun b => decide (b ≠ dot)) n.reverse
        rw [hdrop] at this
        simpa using this
      cases h
      rw [hdrop, hb] at hsplit
      exact ⟨by simpa using (congrArg List.reverse hsplit).symm, by simpa using hafter⟩
  · rintro ⟨rfl, hdot⟩
    have hall : ∀ b ∈ after.reverse, (decide (b ≠ dot)) = true := by
      intro b hb
      simpa using fun hd : b = dot => hdot (hd ▸ List.mem_reverse.mp hb)
    have hrev : (before ++ dot :: after).reverse = after.reverse ++ dot :: before.reverse := by simp
    rw [Path.splitAtLastDot, hrev, List.dropWhile_append_of_pos hall,
      List.takeWhile_append_of_pos hall]
    simp

theorem AssetKind.ofExtension_eq_some_iff {ext : Bytes} {kind : AssetKind} :
    AssetKind.ofExtension ext = some kind ↔ ext = Utf8.encode kind.extension := by
  constructor
  · intro h
    have := List.find?_some h
    exact (eq_of_beq this).symm
  · rintro rfl
    cases kind <;> decide

theorem AssetKind.dot_notMem_extension (kind : AssetKind) : dot ∉ Utf8.encode kind.extension := by
  cases kind <;> decide

/-! ### File names of assets -/

/-- **The file name of an asset is a stem, a dot and the extension of its kind.** -/
theorem ofPath_eq_ok_iff {p : Path} {asset : Asset} :
    Asset.ofPath p = .ok asset ↔ asset.path = p ∧ ∃ stem, stem ≠ [] ∧
      p.fileName = some (stem ++ dot :: Utf8.encode asset.kind.extension) := by
  constructor
  · intro h
    unfold Asset.ofPath at h
    split at h
    · next kind hkind =>
      cases h
      obtain ⟨ext, hext, hof⟩ := Option.bind_eq_some_iff.mp hkind
      obtain ⟨n, hn, hext⟩ := Option.bind_eq_some_iff.mp hext
      obtain ⟨⟨stem, after⟩, hdot, hafter⟩ := Option.bind_eq_some_iff.mp hext
      simp only at hafter
      split at hafter
      · cases hafter
      · next hstem =>
        cases hafter
        rw [AssetKind.ofExtension_eq_some_iff] at hof
        refine ⟨rfl, stem, by simpa using hstem, ?_⟩
        rw [hn, (splitAtLastDot_eq_some_iff.mp hdot).1, hof]
    · cases h
  · obtain ⟨kind, path⟩ := asset
    rintro ⟨rfl, stem, hstem, hname⟩
    have hext : path.extension = some (Utf8.encode kind.extension) := by
      rw [Path.extension, hname]
      simp [splitAtLastDot_eq_some_iff.mpr ⟨rfl, kind.dot_notMem_extension⟩, hstem]
    rw [Asset.ofPath, hext, Option.bind_some, AssetKind.ofExtension_eq_some_iff.mpr rfl]

theorem ofPath_eq_ok {path : Path} {asset : Asset} (h : Asset.ofPath path = .ok asset) :
    asset.path = path :=
  (ofPath_eq_ok_iff.mp h).1

theorem exists_stem {path : Path} {asset : Asset} (h : Asset.ofPath path = .ok asset) :
    ∃ stem, path.fileName = some (stem ++ dot :: Utf8.encode asset.kind.extension) := by
  obtain ⟨-, stem, -, hname⟩ := ofPath_eq_ok_iff.mp h
  exact ⟨stem, hname⟩

/-- **What is refused is given back**, and nothing is refused that is an asset. -/
theorem ofPath_eq_error_iff {p : Path} {e : InvalidAsset} :
    Asset.ofPath p = .error e ↔ e.path = p ∧ ∀ kind, Asset.ofPath p ≠ .ok ⟨kind, p⟩ := by
  rw [Asset.ofPath]
  cases p.extension.bind AssetKind.ofExtension with
  | none =>
    constructor
    · intro h
      cases h
      exact ⟨rfl, by simp⟩
    · rintro ⟨rfl, -⟩
      rfl
  | some kind =>
    constructor
    · intro h
      cases h
    · rintro ⟨-, h⟩
      exact absurd rfl (h kind)

theorem ofPath_congr {p q : Path} (h : p.fileName = q.fileName) (kind : AssetKind) :
    Asset.ofPath p = .ok ⟨kind, p⟩ ↔ Asset.ofPath q = .ok ⟨kind, q⟩ := by
  simp only [ofPath_eq_ok_iff, h, true_and]

/-! ### Bytes of assets -/

/-- Whether a path has the form of an asset of a kind: its last component is some bytes, at least one, and
then a dot and the extension of the kind. -/
def IsNamedAs (p : Path) (kind : AssetKind) : Prop :=
  ∃ stem, stem ≠ [] ∧ p.EndsIn (stem ++ dot :: Utf8.encode kind.extension)

theorem isNamedAs_iff {p : Path} {kind : AssetKind} :
    IsNamedAs p kind ↔ Asset.ofPath p = .ok ⟨kind, p⟩ := by
  have hup : ∀ stem, stem ++ dot :: Utf8.encode kind.extension ≠ [dot, dot] := by
    intro stem h
    have hlast := congrArg (·.getLast?) h
    simp only [List.getLast?_append] at hlast
    revert hlast
    cases kind <;> simp <;> decide
  simp only [IsNamedAs, ofPath_eq_ok_iff, Path.fileName_eq_some_iff, true_and]
  exact exists_congr fun stem => and_congr_right fun _ => (and_iff_left (hup stem)).symm

/-- **A path is an asset just as its last component says, and is given back as it is.**  Where a relative
path is joined to another one, it is still the asset that it was, unless it has no last component: then the
other path says what there is. -/
theorem ofPath_iff_isNamedAs (p : Path) :
    (∀ asset, Asset.ofPath p = .ok asset ↔ asset.path = p ∧ IsNamedAs p asset.kind) ∧
    (∀ e, Asset.ofPath p = .error e ↔ e.path = p ∧ ∀ kind, ¬ IsNamedAs p kind) ∧
    (p.isAbsolute = false → ∀ dir kind,
      ((∃ n, p.EndsIn n) →
        (Asset.ofPath (dir.join p) = .ok ⟨kind, dir.join p⟩ ↔ Asset.ofPath p = .ok ⟨kind, p⟩)) ∧
      ((∀ n, ¬ p.EndsIn n) →
        (Asset.ofPath (dir.join p) = .ok ⟨kind, dir.join p⟩ ↔ Asset.ofPath dir = .ok ⟨kind, dir⟩))) := by
  refine ⟨?_, ?_, ?_⟩
  · rintro ⟨kind, path⟩
    rw [isNamedAs_iff]
    constructor
    · intro h
      obtain ⟨rfl, -⟩ := ofPath_eq_ok_iff.mp h
      exact ⟨rfl, h⟩
    · rintro ⟨rfl, h⟩
      exact h
  · intro e
    simp only [isNamedAs_iff]
    exact ofPath_eq_error_iff
  · intro hrelative dir kind
    refine ⟨?_, ?_⟩
    · intro hends
      exact ofPath_congr (Path.fileName_join hends hrelative dir) kind
    · intro hends
      exact ofPath_congr (Path.fileName_join_of_not_endsIn hends hrelative dir) kind

/-- A `.` has no last component, so it takes on that of the path in front of it. -/
example : Asset.ofPath (.ofString ".") = .error ⟨.ofString "."⟩ ∧
    Asset.ofPath ((Path.ofString "Lit.shader").join (.ofString ".")) =
      .ok ⟨.shader, .ofString "Lit.shader/."⟩ :=
  ⟨rfl, rfl⟩

end ShaderReport
