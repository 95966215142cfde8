import ShaderReport.Proofs.Report.Name
import ShaderReport.Proofs.Text.Lossy

/-!
# Which assets share a report

The name of a report is the shown name of its asset, a dot, its target, and `.json`.  The parts can be
told apart as long as the target stays the same: the shown name of an asset keeps the dot and the
extension of its bytes (`decodeLossy_name`), so a report tells the kind of its asset, and it never
passes for an asset itself (`reportPath_keeps_kind`).

Two targets may differ, and then a dot does not say where the name ends.  Part of a target may as well
be part of the name: `reportName_eq_iff` lists what can happen, and `reportPath_apart_iff` says when two
assets keep their reports apart.
-/

namespace ShaderReport

/-! ### Names of assets -/

theorem AssetKind.extension_injective {k l : AssetKind} (h : k.extension = l.extension) : k = l := by
  revert h
  cases k <;> cases l <;> decide

theorem decodeLossy_name (stem : Bytes) (k : AssetKind) :
    Utf8.decodeLossy (stem ++ dot :: Utf8.encode k.extension) =
      Utf8.decodeLossy stem ++ "." ++ k.extension := by
  rw [Utf8.decodeLossy_append_ascii (by decide), Utf8.decodeLossy_encode]
  rfl

theorem kind_eq_of_shown {stem stem' : Bytes} {k l : AssetKind}
    (h : Utf8.decodeLossy (stem ++ dot :: Utf8.encode k.extension) =
      Utf8.decodeLossy (stem' ++ dot :: Utf8.encode l.extension)) : k = l := by
  have hsplit : ∀ (s : String) (k : AssetKind),
      Path.splitAtLastDot (Utf8.encode (s ++ "." ++ k.extension)) =
        some (Utf8.encode s, Utf8.encode k.extension) := by
    intro s k
    rw [Utf8.encode_append, Utf8.encode_append, List.append_assoc]
    exact splitAtLastDot_eq_some_iff.mpr ⟨rfl, k.dot_notMem_extension⟩
  rw [decodeLossy_name, decodeLossy_name] at h
  have hparts := hsplit (Utf8.decodeLossy stem) k
  rw [h, hsplit] at hparts
  simp only [Option.some.injEq, Prod.mk.injEq] at hparts
  exact AssetKind.extension_injective (Utf8.encode_injective hparts.2).symm

/-! ### Paths of reports -/

theorem reportPath_eq_shown {asset : Asset} {n : Bytes} (h : asset.path.fileName = some n) (dir : Path)
    (target : BuildTarget) :
    reportPath dir asset target =
      dir.join ⟨Utf8.encode (reportName (Utf8.decodeLossy n) target.name)⟩ := by
  simp only [reportPath, h, reportName]
  rfl

theorem isAbsolute_reportName {n : Bytes} (hne : n ≠ []) (hs : slash ∉ n) (target : String) :
    (Path.mk (Utf8.encode (reportName (Utf8.decodeLossy n) target))).isAbsolute = false := by
  rw [Path.isAbsolute, beq_eq_false_iff_ne, reportName, String.append_assoc, String.append_assoc,
    Utf8.encode_append, List.head?_append]
  obtain ⟨b, bs, rfl⟩ := List.exists_cons_of_ne_nil hne
  cases hhead : (Utf8.encode (Utf8.decodeLossy (b :: bs))).head? with
  | none => exact absurd (List.head?_eq_none_iff.mp hhead) (Utf8.encode_decodeLossy_ne_nil b bs)
  | some x =>
    rw [Option.some_or]
    rintro hx
    cases hx
    have := Utf8.head?_decodeLossy (by decide) hhead
    exact hs (by simp_all)

theorem reportPath_eq_iff {asset asset' : Asset} {n n' : Bytes} {dir : Path}
    {target target' : BuildTarget} (hn : asset.path.fileName = some n)
    (hn' : asset'.path.fileName = some n') :
    reportPath dir asset target = reportPath dir asset' target' ↔
      reportName (Utf8.decodeLossy n) target.name = reportName (Utf8.decodeLossy n') target'.name := by
  rw [reportPath_eq_shown hn, reportPath_eq_shown hn']
  obtain ⟨hne, hs⟩ := Path.of_mem_names (Path.mem_names_of_fileName hn)
  obtain ⟨hne', hs'⟩ := Path.of_mem_names (Path.mem_names_of_fileName hn')
  constructor
  · intro h
    have hjoin := Path.join_injective (isAbsolute_reportName hne hs _)
      (isAbsolute_reportName hne' hs' _) h
    exact Utf8.encode_injective (congrArg Path.bytes hjoin)
  · intro h
    rw [h]

theorem Path.suffix_join (base other : Path) : other.bytes <:+ (base.join other).bytes := by
  unfold Path.join
  split
  · exact List.suffix_rfl
  · split
    · exact List.suffix_append _ _
    · exact (List.suffix_cons _ _).trans (List.suffix_append _ _)

/-- The path of a report ends with `.json`, so it has a file name that is not the name of an asset. -/
theorem fileName_reportPath (dir : Path) (asset : Asset) (target : BuildTarget) :
    ∃ name, (reportPath dir asset target).fileName = some name ∧
      ∀ path, path.fileName = some name → Asset.ofPath path = .error ⟨path⟩ := by
  obtain ⟨shown, hshown⟩ : ∃ shown : String,
      reportPath dir asset target = dir.join (.ofString (shown ++ ".json")) := ⟨_, rfl⟩
  have hjson : Utf8.encode ".json" <:+ (reportPath dir asset target).bytes := by
    rw [hshown]
    refine List.IsSuffix.trans ?_ (Path.suffix_join dir _)
    rw [Path.ofString, Utf8.encode_append]
    exact List.suffix_append _ _
  obtain ⟨front, hfront⟩ := hjson
  obtain ⟨m, hm⟩ := Path.exists_fileName_append front (n := Utf8.encode ".json") (by decide) (by decide)
  refine ⟨m ++ Utf8.encode ".json", ?_, fun path hpath => ofPath_json hpath⟩
  rw [← hm, hfront]

/-! ### One target -/

/-- **The report of an asset keeps its kind.**  Two assets of other kinds, or with other names that are
text, have other reports for the same target, whatever bytes their names are made of.  And no report has
a name that an asset could have. -/
theorem reportPath_keeps_kind {p q : Path} {a b : Asset} (ha : Asset.ofPath p = .ok a)
    (hb : Asset.ofPath q = .ok b) (dir : Path) (target : BuildTarget) :
    (reportPath dir a target = reportPath dir b target →
      a.kind = b.kind ∧
      ∀ name name', p.fileName = some (Utf8.encode name) → q.fileName = some (Utf8.encode name') →
        name = name') ∧
    ∀ asset, ∃ name, (reportPath dir asset target).fileName = some name ∧
      ∀ path, path.fileName = some name → Asset.ofPath path = .error ⟨path⟩ := by
  refine ⟨?_, fun asset => fileName_reportPath dir asset target⟩
  intro h
  obtain ⟨stem, hp⟩ := exists_stem ha
  obtain ⟨stem', hq⟩ := exists_stem hb
  have hshown := (reportPath_eq_iff (by rw [ofPath_eq_ok ha, hp]) (by rw [ofPath_eq_ok hb, hq])).mp h
  have hshown := reportName_injective (congrArg Utf8.encode hshown)
  refine ⟨kind_eq_of_shown hshown, ?_⟩
  intro name name' hname hname'
  rw [Option.some.inj (hp.symm.trans hname), Option.some.inj (hq.symm.trans hname'),
    Utf8.decodeLossy_encode, Utf8.decodeLossy_encode] at hshown
  exact hshown

/-- Two names of shaders that are no text, and are shown in the same way. -/
theorem reportPath_keeps_kind_broken :
    let p : Path := ⟨0xFF :: Utf8.encode "Lit.shader"⟩
    let q : Path := ⟨Utf8.encode "in/" ++ 0xFE :: Utf8.encode "Lit.shader/."⟩
    Asset.ofPath p = .ok ⟨.shader, p⟩ ∧ Asset.ofPath q = .ok ⟨.shader, q⟩ ∧
      reportPath (.ofString "out") ⟨.shader, p⟩ .offline =
        reportPath (.ofString "out") ⟨.shader, q⟩ .offline ∧
      (Asset.mk .shader p).kind = (Asset.mk .shader q).kind := by
  intro p q
  have hp : Asset.ofPath p = .ok ⟨.shader, p⟩ := rfl
  have hq : Asset.ofPath q = .ok ⟨.shader, q⟩ := rfl
  have hshared : reportPath (.ofString "out") ⟨.shader, p⟩ .offline =
      reportPath (.ofString "out") ⟨.shader, q⟩ .offline := by
    decide +kernel
  exact ⟨hp, hq, hshared, ((reportPath_keeps_kind hp hq _ _).1 hshared).1⟩

/-! ### Two targets -/

theorem eq_or_exists_piece {s t s' t' : String} {more : List Char}
    (hs : s'.toList = s.toList ++ more) (ht : '.' :: t.toList = more ++ '.' :: t'.toList) :
    (s = s' ∧ t = t') ∨ ∃ piece, s' = s ++ "." ++ piece ∧ t = piece ++ "." ++ t' := by
  cases more with
  | nil =>
    rw [List.append_nil] at hs
    exact Or.inl ⟨String.toList_inj.mp hs.symm, String.toList_inj.mp (List.cons.inj ht).2⟩
  | cons c piece =>
    rw [List.cons_append, List.cons.injEq] at ht
    obtain ⟨rfl, ht⟩ := ht
    refine Or.inr ⟨String.ofList piece, ?_, ?_⟩ <;> apply String.toList_inj.mp
    · simp [hs]
    · simp [ht]

/-- **One dot between two texts is the other one, or a piece stands between them** that may be taken for
the end of one text or for the beginning of the other. -/
theorem append_dot_eq_append_dot_iff {s t s' t' : String} :
    s ++ "." ++ t = s' ++ "." ++ t' ↔ (s = s' ∧ t = t') ∨
      (∃ piece, s' = s ++ "." ++ piece ∧ t = piece ++ "." ++ t') ∨
      ∃ piece, s = s' ++ "." ++ piece ∧ t' = piece ++ "." ++ t := by
  constructor
  · intro h
    have hlist := congrArg String.toList h
    simp only [String.toList_append, List.append_assoc] at hlist
    rcases List.append_eq_append_iff.mp hlist with ⟨more, hs, ht⟩ | ⟨more, hs, ht⟩
    · rcases eq_or_exists_piece hs (by simpa using ht) with heq | hpiece
      · exact Or.inl heq
      · exact Or.inr (Or.inl hpiece)
    · rcases eq_or_exists_piece hs (by simpa using ht) with ⟨rfl, rfl⟩ | hpiece
      · exact Or.inl ⟨rfl, rfl⟩
      · exact Or.inr (Or.inr hpiece)
  · rintro (⟨rfl, rfl⟩ | ⟨piece, rfl, rfl⟩ | ⟨piece, rfl, rfl⟩)
    · rfl
    all_goals simp only [String.append_assoc]

theorem reportName_eq_iff {s t s' t' : String} :
    reportName s t = reportName s' t' ↔ s ++ "." ++ t = s' ++ "." ++ t' := by
  constructor
  · intro h
    have hlist : (s ++ "." ++ t).toList ++ ".json".toList = (s' ++ "." ++ t').toList ++ ".json".toList := by
      rw [← String.toList_append, ← String.toList_append]
      exact congrArg String.toList h
    exact String.toList_inj.mp (List.append_cancel_right hlist)
  · intro h
    rw [reportName, reportName, h]

/-- Whether a name runs into a target: the other name is this one with a dot and a piece, and the target
is the other one with that piece and a dot in front. -/
def RunsInto (name : String) (target : BuildTarget) (name' : String) (target' : BuildTarget) : Prop :=
  ∃ piece, name' = name ++ "." ++ piece ∧ target.name = piece ++ "." ++ target'.name

theorem not_runsInto {name name' : String} {target target' : BuildTarget}
    (h : target = target' ∨ '.' ∉ target.name.toList) : ¬ RunsInto name target name' target' := by
  rintro ⟨piece, -, htarget⟩
  have hlist := congrArg String.toList htarget
  simp only [String.toList_append] at hlist
  rcases h with rfl | hdot
  · have hlen := congrArg List.length hlist
    simp at hlen
    omega
  · exact hdot (by rw [hlist]; simp)

/-- **Reports of two targets are apart unless a name runs into a target.**  That takes two targets, one
of them with a dot. -/
theorem reportPath_apart_iff {p q : Path} {a b : Asset} {name name' : String}
    (ha : Asset.ofPath p = .ok a) (hb : Asset.ofPath q = .ok b)
    (hp : p.fileName = some (Utf8.encode name)) (hq : q.fileName = some (Utf8.encode name'))
    (dir : Path) (target target' : BuildTarget) :
    ((reportPath dir a target = reportPath dir b target' →
        name = name' ∧ target = target' ∧ a.kind = b.kind) ↔
      ¬ RunsInto name target name' target' ∧ ¬ RunsInto name' target' name target) ∧
    (target = target' ∨ '.' ∉ target.name.toList ∧ '.' ∉ target'.name.toList →
      ¬ RunsInto name target name' target' ∧ ¬ RunsInto name' target' name target) := by
  have hshared : reportPath dir a target = reportPath dir b target' ↔
      name ++ "." ++ target.name = name' ++ "." ++ target'.name := by
    rw [reportPath_eq_iff (by rw [ofPath_eq_ok ha, hp]) (by rw [ofPath_eq_ok hb, hq]),
      Utf8.decodeLossy_encode, Utf8.decodeLossy_encode, reportName_eq_iff]
  have hlonger : ∀ s piece : String, s ≠ s ++ "." ++ piece := by
    intro s piece h
    have hlen := congrArg (·.toList.length) h
    simp at hlen
  refine ⟨⟨?_, ?_⟩, ?_⟩
  · intro hapart
    refine ⟨?_, ?_⟩
    · rintro ⟨piece, hname, htarget⟩
      have hequal := hapart
        (hshared.mpr (append_dot_eq_append_dot_iff.mpr (Or.inr (Or.inl ⟨piece, hname, htarget⟩))))
      exact hlonger name piece (hequal.1.trans hname)
    · rintro ⟨piece, hname, htarget⟩
      have hequal := hapart
        (hshared.mpr (append_dot_eq_append_dot_iff.mpr (Or.inr (Or.inr ⟨piece, hname, htarget⟩))))
      exact hlonger name' piece (hequal.1.symm.trans hname)
  · rintro ⟨hno, hno'⟩ h
    rcases append_dot_eq_append_dot_iff.mp (hshared.mp h) with ⟨rfl, htarget⟩ | hruns | hruns
    · obtain ⟨stem, hstem⟩ := exists_stem ha
      obtain ⟨stem', hstem'⟩ := exists_stem hb
      have hnames := Option.some.inj (hstem.symm.trans (hp.trans (hq.symm.trans hstem')))
      exact ⟨rfl, congrArg BuildTarget.mk htarget,
        kind_eq_of_shown (congrArg Utf8.decodeLossy hnames)⟩
    · exact absurd hruns hno
    · exact absurd hruns hno'
  · rintro (rfl | ⟨hdot, hdot'⟩)
    · exact ⟨not_runsInto (Or.inl rfl), not_runsInto (Or.inl rfl)⟩
    · exact ⟨not_runsInto (Or.inr hdot), not_runsInto (Or.inr hdot')⟩

/-- A shader and a material for one target without a dot. -/
theorem reportPath_apart_iff_lit :
    let p := Path.ofString "Lit.shader"
    let q := Path.ofString "Lit.mat"
    Asset.ofPath p = .ok ⟨.shader, p⟩ ∧ Asset.ofPath q = .ok ⟨.material, q⟩ ∧
      p.fileName = some (Utf8.encode "Lit.shader") ∧ q.fileName = some (Utf8.encode "Lit.mat") ∧
      ¬ RunsInto "Lit.shader" .offline "Lit.mat" .offline ∧
      reportPath (.ofString "out") ⟨.shader, p⟩ .offline ≠
        reportPath (.ofString "out") ⟨.material, q⟩ .offline := by
  intro p q
  have hp : Asset.ofPath p = .ok ⟨.shader, p⟩ := rfl
  have hq : Asset.ofPath q = .ok ⟨.material, q⟩ := rfl
  have hname : p.fileName = some (Utf8.encode "Lit.shader") := rfl
  have hname' : q.fileName = some (Utf8.encode "Lit.mat") := rfl
  obtain ⟨hapart, hdots⟩ :=
    reportPath_apart_iff hp hq hname hname' (.ofString "out") .offline .offline
  have hruns := hdots (Or.inl rfl)
  refine ⟨hp, hq, hname, hname', hruns.1, ?_⟩
  intro h
  have := (hapart.mpr hruns h).1
  revert this
  decide

/-- **A shader and a material share a report** for two targets, one of which goes on where the name of
the material ends. -/
theorem reportPath_shared :
    let p := Path.ofString "Lit.shader"
    let q := Path.ofString "Lit.shader.hd.mat"
    Asset.ofPath p = .ok ⟨.shader, p⟩ ∧ Asset.ofPath q = .ok ⟨.material, q⟩ ∧
      reportPath (.ofString "out") ⟨.shader, p⟩ ⟨"hd.mat.ios"⟩ =
        reportPath (.ofString "out") ⟨.material, q⟩ ⟨"ios"⟩ ∧
      "Lit.shader" ≠ "Lit.shader.hd.mat" ∧ "hd.mat.ios" ≠ "ios" ∧
      AssetKind.shader ≠ AssetKind.material := by
  refine ⟨rfl, rfl, ?_, by decide, by decide, by decide⟩
  decide +kernel

end ShaderReport
