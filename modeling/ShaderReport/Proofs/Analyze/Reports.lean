import Mathlib.Data.List.Forall2
import ShaderReport.Proofs.Analyze.Distinct
import ShaderReport.Proofs.Analyze.Session
import ShaderReport.Proofs.Analyze.Written

/-!
# What analyzing assets leaves behind

If analyzing assets succeeds, every distinct asset has its report, made of the text it had when the
analysis started, and no other file was touched: `analyzeAssets_reports`.

The proof carries `Progress` along the assets that are done: one more asset keeps it
(`Progress.step`), so all of them do (`Progress.run`).
-/

namespace ShaderReport.Analyze

open FileSystem

/-! ### One asset after the other -/

/-- Whether a job is that of an asset, is complete and did not fail. -/
def Handles (b : Bench) (target : BuildTarget) (job : JobId) (path : Path) : Prop :=
  ∃ j, b.jobs[job]? = some (.source j) ∧ Asset.ofPath path = .ok j.asset ∧ j.target = target ∧
    j.state.complete = true ∧ j.state.failure = none

/-- A session after some assets, none of which failed.  What there is to say of the files holds once
the output directory is prepared again, which changes nothing from the second asset on. -/
structure Progress (fs : FileSystem) (dir : Path) (target : BuildTarget) (s : Session)
    (done : List Path) : Prop where
  between : Between dir s.manager
  jobs : s.jobs = List.range s.manager.world.jobs.length
  handles : List.Forall₂ (Handles s.manager.world target) s.jobs done
  prepared : done ≠ [] → (prepareOutputDir s.manager.world.files dir).1 = s.manager.world.files
  written : Written fs dir target (prepareOutputDir s.manager.world.files dir).1 done

variable {fs : FileSystem} {dir : Path} {target : BuildTarget}

theorem Handles.append {b b' : Bench} {job : JobId} {path : Path} (h : Handles b target job path)
    {new : Job} (hjobs : b'.jobs = b.jobs ++ [new]) : Handles b' target job path := by
  obtain ⟨j, hj, hrest⟩ := h
  refine ⟨j, ?_, hrest⟩
  obtain ⟨hlt, -⟩ := List.getElem?_eq_some_iff.mp hj
  rw [hjobs, List.getElem?_append_left hlt, hj]

theorem Built.failed_eq_nil {s s' : Session} {path : Path} {asset : Asset} {pace : Pace}
    {j : SourceJob} (h : Built dir target s path asset pace j s') (hnil : s'.failed = []) :
    s.failed = [] ∧ j.failure = none := by
  have hfailed := h.failed
  rw [hnil] at hfailed
  cases hj : j.failure with
  | none =>
    rw [hj] at hfailed
    exact ⟨hfailed.symm, rfl⟩
  | some failure =>
    rw [hj] at hfailed
    simp at hfailed

theorem BuildingAll.failed_eq_nil {console : Console} {s s' : Session} {paths : List Path}
    {answer : Except Failure Unit} (h : BuildingAll console dir target s paths s' answer)
    (hok : answer = .ok ()) (hnil : s'.failed = []) : s.failed = [] := by
  induction h with
  | nil => exact hnil
  | stop here => cases hok
  | cons here rest ih => exact (here.failed_eq_nil (ih hok hnil)).1

/-- **One more asset.** -/
theorem Progress.step {s s' : Session} {done : List Path} (h : Progress fs dir target s done)
    (hc : IsPlace fs fs.current) (hlinks : HasNoLinks (prepareOutputDir fs dir).1 dir)
    (ht : '/' ∉ target.name.toList) {argument path : Path}
    (hpath : fs.canonicalize argument = .ok path) (hnew : ∀ p ∈ done, nameOf p ≠ nameOf path)
    {asset : Asset} {pace : Pace} {j : SourceJob}
    (hbuilt : Built dir target s path asset pace j s') (hj : j.failure = none) :
    Progress fs dir target s' (done ++ [path]) := by
  have ha := hbuilt.of_path
  obtain ⟨hcomplete, hasset, htarget, -⟩ :=
    SourceJob.finish_new_job asset target pace dir (prepareOutputDir s.manager.world.files dir).1
  obtain ⟨text, report, htext, hreport, hwrite⟩ := SourceJob.finish_new_ok (hbuilt.job ▸ hj)
  rw [← hbuilt.job] at hcomplete hasset htarget
  rw [← hbuilt.files] at hwrite
  rw [ofPath_eq_ok ha] at htext
  -- The path of an asset is in its report, so it is text, and its name makes a name of its own.
  have hpathText : ∃ text, path = .ofString text :=
    ofPath_eq_ok ha ▸ Report.exists_text_of_toPretty hreport
  obtain ⟨name, hname, -, hslash⟩ := exists_name ha hpathText
  obtain ⟨hwritten, hprepared⟩ := h.written.write hlinks ht ha hname hslash
    (h.written.readText_eq hc hpath ha htext) hreport hnew hwrite
  have hready : (prepareOutputDir s'.manager.world.files dir).1 = s'.manager.world.files := by
    rw [hprepared]
  refine ⟨hbuilt.between, ?_, ?_, fun _ => hready, hready.symm ▸ hwritten⟩
  · rw [hbuilt.ids, h.jobs, hbuilt.jobs, List.length_append, List.length_singleton, List.range_succ]
  · rw [hbuilt.ids]
    refine List.rel_append (h.handles.imp fun _ _ hh => hh.append hbuilt.jobs) (.cons ?_ .nil)
    exact ⟨j, by rw [hbuilt.jobs, List.getElem?_concat_length], hasset ▸ ha, htarget, hcomplete, hj⟩

/-- **All the assets, one after the other.** -/
theorem Progress.run {console : Console} {s s' : Session} {done paths : List Path}
    {answer : Except Failure Unit} (h : Progress fs dir target s done)
    (hb : BuildingAll console dir target s paths s' answer) (hok : answer = .ok ())
    (hc : IsPlace fs fs.current) (hlinks : HasNoLinks (prepareOutputDir fs dir).1 dir)
    (ht : '/' ∉ target.name.toList)
    (hpaths : ∀ path ∈ paths, ∃ argument, fs.canonicalize argument = .ok path)
    (hnames : ((done ++ paths).map nameOf).Nodup) (hfailed : s'.failed = []) :
    Progress fs dir target s' (done ++ paths) := by
  induction hb generalizing done with
  | nil => rwa [List.append_nil]
  | stop here => cases hok
  | @cons s s₁ s' path paths asset pace j answer here rest ih =>
    obtain ⟨argument, hargument⟩ := hpaths path List.mem_cons_self
    have hnew : ∀ p ∈ done, nameOf p ≠ nameOf path := by
      intro p hp
      rw [List.map_append] at hnames
      exact (List.nodup_append.mp hnames).2.2 _ (List.mem_map_of_mem hp) _ (by simp)
    have hj := (here.failed_eq_nil (rest.failed_eq_nil hok hfailed)).2
    have hstep := h.step hc hlinks ht hargument hnew here hj
    rw [← List.singleton_append, ← List.append_assoc] at hnames ⊢
    exact ih hstep hok (fun p hp => hpaths p (List.mem_cons_of_mem _ hp)) hnames hfailed

/-! ### The main statement -/

theorem progress_opening (config : Config) (d : Distinct) :
    Progress fs dir target (opening config dir fs d) [] := by
  obtain ⟨hbetween, hfiles, hjobs⟩ := opening_between config dir fs d
  refine ⟨hbetween, ?_, .nil, fun hne => absurd rfl hne, ?_⟩
  · rw [hjobs]
    rfl
  · rw [hfiles]
    exact ⟨.refl _, fun _ hp => (List.not_mem_nil hp).elim, fun _ => Or.inl rfl⟩

theorem analyzeAssets_eq_ok {console : Console} {config : Config} {arguments : List Path}
    {s : Session} {jobs : List JobId}
    (h : analyzeAssets console config dir fs arguments = (s, .ok jobs)) :
    ∃ d, distinct fs arguments = (d, .ok ()) ∧
      buildAll console dir config.options.target (opening config dir fs d) d.paths = (s, .ok ()) ∧
      s.failed = [] ∧ s.jobs = jobs := by
  rw [analyzeAssets] at h
  rcases hd : distinct fs arguments with ⟨d, found⟩
  simp only [hd] at h
  cases found with
  | error e => cases h
  | ok _ =>
    rcases hb : buildAll console dir config.options.target (opening config dir fs d) d.paths with
      ⟨s₁, built⟩
    simp only [hb] at h
    cases built with
    | error e => cases h
    | ok _ =>
      by_cases hfailed : s₁.failed.isEmpty = true
      · simp only [hfailed, if_true] at h
        cases h
        exact ⟨d, rfl, hb, List.isEmpty_iff.mp hfailed, rfl⟩
      · simp only [hfailed] at h
        cases h

/-- **If analyzing assets succeeds, every distinct asset has its report and nothing else changed.**
The jobs are those of the distinct assets, in the order in which the assets come first, and none of
them failed.  The report is made of the text that the asset had at the start, whatever the number of
lines in a tick, and what was in the file system stays as it was unless it is the file of a report.

The current directory has to be one that is reached from the root, as it always is.  That no entry of
the output directory is a link is asked for once the directory is prepared: a path such as "a/../b"
leads nowhere before "a" is created, and then to a directory that may hold links. -/
theorem analyzeAssets_reports {console : Console} {config : Config} {dir : Path} {fs : FileSystem}
    {arguments : List Path} {s : Session} {jobs : List JobId} (hc : IsPlace fs fs.current)
    (hlinks : HasNoLinks (prepareOutputDir fs dir).1 dir)
    (ht : '/' ∉ config.options.target.name.toList)
    (h : analyzeAssets console config dir fs arguments = (s, .ok jobs)) :
    ∃ paths, arguments.mapM fs.canonicalize = .ok paths ∧ jobs.Nodup ∧
      List.Forall₂ (Handles s.manager.world config.options.target) jobs paths.eraseDups ∧
      (∀ path ∈ paths, HasReport fs s.manager.world.files dir config.options.target path) ∧
      ∀ l e, fs.get? l = some e →
        (∀ path ∈ paths, ∀ asset, Asset.ofPath path = .ok asset →
          ¬ IsFileAt s.manager.world.files (reportPath dir asset config.options.target) l) →
        s.manager.world.files.get? l = some e := by
  obtain ⟨d, hd, hb, hfailed, rfl⟩ := analyzeAssets_eq_ok h
  obtain ⟨hbetween, hfiles, -⟩ := opening_between config dir fs d
  obtain ⟨paths, hpaths, hdistinct, hnamed⟩ := distinct_eq_ok hd
  have hmem : ∀ {path}, path ∈ d.paths ↔ path ∈ paths := by
    intro path
    rw [hdistinct, List.mem_eraseDups]
  have hprogress : Progress fs dir config.options.target s d.paths :=
    (progress_opening config d).run (buildingAll_of_eq hbetween hb) rfl hc hlinks ht
      (fun path hp => exists_of_mem_mapM hpaths (hmem.mp hp)) hnamed hfailed
  have hready : d.paths ≠ [] →
      Written fs dir config.options.target s.manager.world.files d.paths := by
    intro hne
    exact hprogress.prepared hne ▸ hprogress.written
  refine ⟨paths, hpaths, ?_, hdistinct ▸ hprogress.handles, ?_, ?_⟩
  · rw [hprogress.jobs]
    exact List.nodup_range
  · intro path hp
    obtain ⟨asset, name, text, report, place, hs⟩ :=
      (hready (List.ne_nil_of_mem (hmem.mpr hp))).settled path (hmem.mpr hp)
    exact hs.hasReport
  · intro l e he hno
    cases hnil : d.paths with
    | nil =>
      -- Without assets the output directory is not even prepared.
      rw [hnil] at hb
      cases hb
      rw [hfiles, he]
    | cons path rest =>
      have hwritten := hready (by simp [hnil])
      rcases hwritten.others l with hl | ⟨p, hp, hr⟩
      · exact hl.trans ((prepareOutputDir_adds fs dir).keeps he)
      · obtain ⟨asset, name, text, report, place, hs⟩ := hwritten.settled p hp
        obtain rfl := hs.eq_of_isReport hwritten.ways hr
        exact absurd ⟨_, _, hs.resolve⟩ (hno p (hmem.mp hp) asset hs.of_path)

/-! ### An asset named twice -/

/-- The current directory, which holds one material. -/
def desk : FileSystem :=
  ⟨[([Utf8.encode "w"], .directory), ([Utf8.encode "w", Utf8.encode "a.mat"], .file [])],
    [Utf8.encode "w"]⟩

/-- A config whose one target is the default one. -/
def deskConfig : Config :=
  ⟨.default, [(Options.default.target, .default)]⟩

theorem isPlace_desk : IsPlace desk desk.current :=
  .child (l := []) .root ⟨by decide, by decide, by decide, by decide⟩ rfl

theorem hasNoLinks_desk : HasNoLinks desk ⟨[]⟩ := by
  intro l hl n t hg
  rw [get?, if_neg (by simp), List.lookup_eq_some_iff] at hg
  obtain ⟨before, after, hentries, -⟩ := hg
  have hmem : (l ++ [n], Entry.link t) ∈ desk.entries := by simp [hentries]
  simp [desk] at hmem

theorem resolve_desk {aim : Aim} (ha : aim ≠ .writing) {p : Path}
    (hp : p = .ofString "a.mat" ∨ p = .ofString "/w/a.mat") :
    desk.resolve aim p =
      .ok (.found [Utf8.encode "w", Utf8.encode "a.mat"] (.file []) false) := by
  have hmat : Walks desk aim maxLinks [Utf8.encode "w"] [Utf8.encode "a.mat"] false
      (.found [Utf8.encode "w", Utf8.encode "a.mat"] (.file []) false) :=
    .file ⟨by decide, by decide, fun h => ha h.1, by cases aim <;> decide⟩ rfl
  rw [resolve_eq_ok_iff]
  rcases hp with rfl | rfl
  · exact ⟨⟨by decide, by decide, fun _ => by decide⟩, hmat⟩
  · exact ⟨⟨by decide, by decide, fun _ => by decide⟩,
      .down ⟨by decide, by decide, fun h => ha h.1, by cases aim <;> decide⟩ rfl hmat⟩

theorem distinct_desk :
    distinct desk [.ofString "a.mat", .ofString "/w/a.mat"] =
      (⟨[.ofString "/w/a.mat"], [.ofString "/w/a.mat"]⟩, .ok ()) := by
  have hc : ∀ p, p = .ofString "a.mat" ∨ p = .ofString "/w/a.mat" →
      desk.canonicalize p = .ok (.ofString "/w/a.mat") := by
    intro p hp
    rw [canonicalize, resolve_desk (by decide) hp]
    rfl
  simp only [distinct, Distinct.addAll, Distinct.add, hc _ (.inl rfl), hc _ (.inr rfl)]
  rfl

theorem write_desk (content : Bytes) :
    desk.write (.ofString "a.mat.offline.json") content =
      .ok (desk.put [Utf8.encode "w", Utf8.encode "a.mat.offline.json"] (.file content)) := by
  have hd : desk.resolve .writing (.ofString "a.mat.offline.json") =
      .ok (.free [Utf8.encode "w", Utf8.encode "a.mat.offline.json"]) := by
    rw [resolve_eq_ok_iff]
    exact ⟨⟨by decide, by decide, by decide⟩,
      .free ⟨by decide, by decide, by decide, by decide⟩ rfl⟩
  rw [FileSystem.write, placeOfFile, hd]
  rfl

theorem analyzeAssets_desk :
    ∃ s, analyzeAssets .unfailing deskConfig ⟨[]⟩ desk [.ofString "a.mat", .ofString "/w/a.mat"] =
      (s, .ok [0]) := by
  have ha : Asset.ofPath (.ofString "/w/a.mat") = .ok ⟨.material, .ofString "/w/a.mat"⟩ := by
    decide +kernel
  have hr : desk.readText (.ofString "/w/a.mat") = .ok "" := by
    rw [readText_eq_ok_iff, read_eq_ok_iff]
    exact ⟨_, resolve_desk (by decide) (.inr rfl)⟩
  obtain ⟨report, hreport⟩ : ∃ report, (Report.ofAnalysis ⟨.material, .ofString "/w/a.mat"⟩
      deskConfig.options.target .succeeded (.ofText "")).toPretty = .ok report :=
    ⟨_, congrArg (Except.map Json.Value.toPretty) (Report.toJson_of_asset rfl)⟩
  have hplace : reportPath ⟨[]⟩ ⟨.material, .ofString "/w/a.mat"⟩ deskConfig.options.target =
      .ofString "a.mat.offline.json" := by decide +kernel
  have hw := write_desk (Utf8.encode report)
  rw [← hplace] at hw
  generalize hd : (⟨[.ofString "/w/a.mat"], [.ofString "/w/a.mat"]⟩ : Distinct) = d
  obtain ⟨hbetween, hfiles, hjobs⟩ := opening_between deskConfig ⟨[]⟩ desk d
  obtain ⟨s, hb⟩ : ∃ s, build .unfailing ⟨[]⟩ deskConfig.options.target
      (opening deskConfig ⟨[]⟩ desk d) (.ofString "/w/a.mat") = (s, .ok ()) :=
    build_ok hbetween ha rfl rfl
  obtain ⟨asset, pace, j, hbuilt⟩ := build_eq_ok hbetween hb
  cases ha.symm.trans hbuilt.of_path
  have hnone : j.failure = none := by
    rw [hbuilt.job, hfiles]
    exact SourceJob.finish_new_failure hr hreport hw pace
  have hfail := hbuilt.failed
  have hids := hbuilt.ids
  rw [hnone] at hfail
  rw [hjobs] at hids
  refine ⟨s, ?_⟩
  have hpaths : d.paths = [.ofString "/w/a.mat"] := hd ▸ rfl
  simp only [analyzeAssets, distinct_desk, hd, hpaths, buildAll, hb, hfail, hids]
  rfl

theorem analyzeAssets_reports_desk :
    IsPlace desk desk.current ∧ HasNoLinks (prepareOutputDir desk ⟨[]⟩).1 ⟨[]⟩ ∧
      '/' ∉ deskConfig.options.target.name.toList ∧
      ∃ s, analyzeAssets .unfailing deskConfig ⟨[]⟩ desk
            [.ofString "a.mat", .ofString "/w/a.mat"] = (s, .ok [0]) ∧
        ∃ paths, [Path.ofString "a.mat", .ofString "/w/a.mat"].mapM desk.canonicalize = .ok paths ∧
          [0].Nodup ∧
          List.Forall₂ (Handles s.manager.world deskConfig.options.target) [0] paths.eraseDups ∧
          (∀ path ∈ paths,
            HasReport desk s.manager.world.files ⟨[]⟩ deskConfig.options.target path) ∧
          ∀ l e, desk.get? l = some e →
            (∀ path ∈ paths, ∀ asset, Asset.ofPath path = .ok asset → ¬ IsFileAt
              s.manager.world.files (reportPath ⟨[]⟩ asset deskConfig.options.target) l) →
            s.manager.world.files.get? l = some e := by
  obtain ⟨s, hs⟩ := analyzeAssets_desk
  have ht : '/' ∉ deskConfig.options.target.name.toList := by decide
  exact ⟨isPlace_desk, hasNoLinks_desk, ht, s, hs,
    analyzeAssets_reports isPlace_desk hasNoLinks_desk ht hs⟩

end ShaderReport.Analyze
