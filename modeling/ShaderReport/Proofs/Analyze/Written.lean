import ShaderReport.Analyze
import ShaderReport.Proofs.FileSystem.Directories
import ShaderReport.Proofs.Report.Name
import ShaderReport.Proofs.Report.RoundTrip

/-!
# Files with reports

`Written` compares the files once the reports of some assets are written with the ones that preparing
the output directory leaves at first.  They differ in the places of reports only, and there each holds
the report of its asset (`Settled`).

* `Written.readText_eq`: an asset is read as it was read at the start, for no report has the name of an
  asset.
* `Written.write`: one more report is written to a place of its own, for reports of other assets have
  other names.
-/

namespace ShaderReport.Analyze

open FileSystem

/-! ### The statement's words -/

/-- The directory that names joined to a path stand in.  The empty path stands for the current
directory. -/
def directoryAt? (fs : FileSystem) (p : Path) : Option Location :=
  if p.bytes.isEmpty then some fs.current
  else match fs.resolve .target p with
    | .ok (.found l .directory _) => some l
    | _ => none

/-- Whether no entry of a directory is a link. -/
def HasNoLinks (fs : FileSystem) (dir : Path) : Prop :=
  ∀ l, directoryAt? fs dir = some l → ∀ n t, fs.get? (l ++ [n]) ≠ some (.link t)

/-- Whether a path leads to the file at a location. -/
def IsFileAt (fs : FileSystem) (p : Path) (l : Location) : Prop :=
  ∃ content b, fs.resolve .target p = .ok (.found l (.file content) b)

/-- Whether the file at the path of its report holds the report of an asset, made of the text that
the asset has in the first file system. -/
def HasReport (fs files : FileSystem) (dir : Path) (target : BuildTarget) (path : Path) : Prop :=
  ∃ asset text report, Asset.ofPath path = .ok asset ∧ fs.readText path = .ok text ∧
    (Report.ofAnalysis asset target .succeeded (.ofText text)).toPretty = .ok report ∧
    files.read (reportPath dir asset target) = .ok (Utf8.encode report)

theorem directoryAt?_of_leadsTo {fs : FileSystem} {dir : Path} {l : Location}
    (h : fs.LeadsTo dir l) (hz : dir.bytes.contains 0 = false) (hlen : dir.bytes.length ≤ maxPath) :
    directoryAt? fs dir = some l := by
  obtain ⟨b, hb⟩ := h
  rw [directoryAt?]
  by_cases he : dir.bytes = []
  · obtain ⟨bytes⟩ := dir
    cases he
    cases hb
    rfl
  · rw [if_neg (by simpa using he), resolve_eq_ok_iff.mpr ⟨⟨hz, he, fun _ => hlen⟩, hb⟩]

/-! ### The files after some reports -/

section Written

variable (fs : FileSystem) (dir : Path) (target : BuildTarget)

/-- What is settled of an asset that is done: its name and its text, and where its report is. -/
structure Settled (files : FileSystem) (path : Path) (asset : Asset) (name text report : String)
    (place : Location) : Prop where
  of_path : Asset.ofPath path = .ok asset
  file_name : path.fileName = some (Utf8.encode name)
  is_name : IsName (Utf8.encode (reportName name target.name))
  read_text : fs.readText path = .ok text
  to_pretty : (Report.ofAnalysis asset target .succeeded (.ofText text)).toPretty = .ok report
  leads : files.LeadsTo dir place
  passes : Passes .target (reportPath dir asset target)
  in_reach : isOutOfReach .target (place ++ [Utf8.encode (reportName name target.name)]) = false
  file : files.get? (place ++ [Utf8.encode (reportName name target.name)]) =
    some (.file (Utf8.encode report))

/-- Whether a location is the place of the report of an asset. -/
def IsReport (files : FileSystem) (path : Path) (l : Location) : Prop :=
  ∃ name place, path.fileName = some (Utf8.encode name) ∧ files.LeadsTo dir place ∧
    l = place ++ [Utf8.encode (reportName name target.name)]

/-- The files once the reports of some assets are written. -/
structure Written (files : FileSystem) (done : List Path) : Prop where
  ways : KeepsWays (prepareOutputDir fs dir).1 files
  settled : ∀ path ∈ done, ∃ asset name text report place,
    Settled fs dir target files path asset name text report place
  others : ∀ l, files.get? l = (prepareOutputDir fs dir).1.get? l ∨
    ∃ path ∈ done, IsReport dir target (prepareOutputDir fs dir).1 path l

end Written

variable {fs : FileSystem} {dir : Path} {target : BuildTarget}

namespace Settled

variable {files files' : FileSystem} {path : Path} {asset : Asset} {name text report : String}
  {place : Location}

theorem resolve (h : Settled fs dir target files path asset name text report place) :
    files.resolve .target (reportPath dir asset target) =
      .ok (.found (place ++ [Utf8.encode (reportName name target.name)])
        (.file (Utf8.encode report)) false) := by
  have hpath : reportPath dir asset target = dir.join ⟨Utf8.encode (reportName name target.name)⟩ :=
    reportPath_eq (ofPath_eq_ok h.of_path ▸ h.file_name) dir target
  have hpass := h.passes
  rw [hpath] at hpass ⊢
  exact resolve_join h.is_name h.leads hpass h.in_reach h.file

theorem hasReport (h : Settled fs dir target files path asset name text report place) :
    HasReport fs files dir target path :=
  ⟨asset, text, report, h.of_path, h.read_text, h.to_pretty, read_eq_ok_iff.mpr ⟨_, h.resolve⟩⟩

theorem mono (h : Settled fs dir target files path asset name text report place)
    (hk : KeepsWays files files')
    (hf : files'.get? (place ++ [Utf8.encode (reportName name target.name)]) =
      files.get? (place ++ [Utf8.encode (reportName name target.name)])) :
    Settled fs dir target files' path asset name text report place :=
  { h with leads := h.leads.mono hk, file := hf.trans h.file }

theorem eq_of_isReport (h : Settled fs dir target files path asset name text report place)
    {ready : FileSystem} (hk : KeepsWays ready files) {l : Location}
    (hl : IsReport dir target ready path l) :
    l = place ++ [Utf8.encode (reportName name target.name)] := by
  obtain ⟨name', place', hname, hleads, rfl⟩ := hl
  have hn : name' = name := Utf8.encode_injective (Option.some.inj (hname.symm.trans h.file_name))
  rw [hn, (hleads.mono hk).unique h.leads]

end Settled

namespace Written

variable {files : FileSystem} {done : List Path}

theorem file_of_isReport (h : Written fs dir target files done) {path : Path} (hp : path ∈ done)
    {l : Location} (hl : IsReport dir target (prepareOutputDir fs dir).1 path l) :
    ∃ content, files.get? l = some (.file content) := by
  obtain ⟨asset, name, text, report, place, hs⟩ := h.settled path hp
  rw [hs.eq_of_isReport h.ways hl]
  exact ⟨_, hs.file⟩

/-- The reports have brought no directories and no links. -/
theorem ways_back (h : Written fs dir target files done) :
    KeepsWays files (prepareOutputDir fs dir).1 := by
  have hsame : ∀ {l e}, files.get? l = some e → (∀ content, e ≠ .file content) →
      (prepareOutputDir fs dir).1.get? l = some e := by
    intro l e he hfile
    rcases h.others l with hl | ⟨path, hp, hl⟩
    · exact hl.symm.trans he
    · obtain ⟨content, hc⟩ := h.file_of_isReport hp hl
      rw [he] at hc
      exact absurd (Option.some.inj hc) (hfile content)
  exact ⟨h.ways.current.symm, fun hd => hsame hd (by simp), fun hl => hsame hl (by simp)⟩

theorem get?_asset (h : Written fs dir target files done) {m : Location} {n : Bytes}
    (hm : IsPlace fs m) (hn : IsName n) {asset : Asset}
    (ha : Asset.ofPath (Location.path (m ++ [n])) = .ok asset) {e : Entry}
    (he : fs.get? (m ++ [n]) = some e) : files.get? (m ++ [n]) = some e := by
  have hnames := hm.names_concat hn
  rcases h.others (m ++ [n]) with hl | ⟨path, -, name, place, -, -, hl⟩
  · exact hl.trans ((prepareOutputDir_adds fs dir).keeps he)
  · have hfile : (Location.path (m ++ [n])).fileName =
        some (Utf8.encode (reportName name target.name)) := by
      rw [Location.fileName_path hnames, hl, List.getLast?_concat]
    rw [ofPath_reportName hfile] at ha
    cases ha

/-- **What an asset is read as is what it was read as at the start.** -/
theorem readText_eq (h : Written fs dir target files done) (hc : IsPlace fs fs.current)
    {argument path : Path} (hpath : fs.canonicalize argument = .ok path) {asset : Asset}
    (ha : Asset.ofPath path = .ok asset) {text : String} (ht : files.readText path = .ok text) :
    fs.readText path = .ok text := by
  rcases canonicalize_eq_ok hc hpath with rfl | ⟨m, n, e, rfl, hm, hn, he, hlink⟩
  · cases ha
  · have hm' : IsPlace files m := (hm.mono (prepareOutputDir_adds fs dir).keepsWays).mono h.ways
    have he' := h.get?_asset hm hn ha he
    rw [readText_path hn hm' he' hlink] at ht
    rwa [readText_path hn hm he hlink]

theorem not_link (h : Written fs dir target files done)
    (hlinks : HasNoLinks (prepareOutputDir fs dir).1 dir) {l : Location} (hl : files.LeadsTo dir l)
    (hz : dir.bytes.contains 0 = false) (hlen : dir.bytes.length ≤ maxPath) (n : Bytes) (t : Path) :
    files.get? (l ++ [n]) ≠ some (.link t) := fun hlink =>
  hlinks l (directoryAt?_of_leadsTo (hl.mono h.ways_back) hz hlen) n t (h.ways_back.link hlink)

/-- **A report is written to a place of its own**, and the output directory is there then. -/
theorem write (h : Written fs dir target files done)
    (hlinks : HasNoLinks (prepareOutputDir fs dir).1 dir) (ht : '/' ∉ target.name.toList)
    {path : Path} {asset : Asset} {name text report : String} (ha : Asset.ofPath path = .ok asset)
    (hname : path.fileName = some (Utf8.encode name)) (hslash : slash ∉ Utf8.encode name)
    (htext : fs.readText path = .ok text)
    (hreport : (Report.ofAnalysis asset target .succeeded (.ofText text)).toPretty = .ok report)
    (hnew : ∀ p ∈ done, nameOf p ≠ nameOf path) {files' : FileSystem}
    (hw : files.write (reportPath dir asset target) (Utf8.encode report) = .ok files') :
    Written fs dir target files' (done ++ [path]) ∧
      prepareOutputDir files' dir = (files', .ok ()) := by
  have hn : IsName (Utf8.encode (reportName name target.name)) := isName_reportName hslash ht
  have hpath : reportPath dir asset target = dir.join ⟨Utf8.encode (reportName name target.name)⟩ :=
    reportPath_eq (ofPath_eq_ok ha ▸ hname) dir target
  rw [hpath] at hw
  obtain ⟨place, hleads, hpass, hreach, hfree, rfl⟩ := write_join hn hw fun hpass l hl =>
    h.not_link hlinks hl (hpass.of_join hn (by decide)).1 (hpass.of_join hn (by decide)).2 _
  have hkeeps : KeepsWays files (files.put (place ++ [Utf8.encode (reportName name target.name)])
    (.file (Utf8.encode report))) := put_file_keepsWays hfree
  have hne : place ++ [Utf8.encode (reportName name target.name)] ≠ [] := by simp
  have hready : (prepareOutputDir fs dir).1.LeadsTo dir place := hleads.mono h.ways_back
  obtain ⟨hz, hlen⟩ := hpass.of_join hn (by decide)
  refine ⟨⟨h.ways.trans hkeeps, ?_, ?_⟩,
    prepareOutputDir_of_leadsTo (hleads.mono hkeeps) hz hlen⟩
  · intro p hp
    rcases List.mem_append.mp hp with hp | hp
    · -- An earlier report has another name, so its file is not the one that was written.
      obtain ⟨asset', name', text', report', place', hs⟩ := h.settled p hp
      refine ⟨asset', name', text', report', place', hs.mono hkeeps (get?_put_ne ?_ _ _)⟩
      intro heq
      have hlast := (List.append_inj' heq rfl).2
      have hnames : name' = name := reportName_injective (List.singleton_inj.mp hlast)
      apply hnew p hp
      rw [nameOf, nameOf, hs.file_name, hname, hnames]
    · obtain rfl := List.mem_singleton.mp hp
      exact ⟨asset, name, text, report, place, ha, hname, hn, htext, hreport, hleads.mono hkeeps,
        hpath ▸ hpass, hreach, get?_put_self hne _ _⟩
  · intro l
    by_cases hl : l = place ++ [Utf8.encode (reportName name target.name)]
    · exact Or.inr ⟨path, by simp, name, place, hname, hready, hl⟩
    · rw [get?_put_ne hl]
      rcases h.others l with hsame | ⟨p, hp, hr⟩
      · exact Or.inl hsame
      · exact Or.inr ⟨p, List.mem_append_left _ hp, hr⟩

end Written

end ShaderReport.Analyze
