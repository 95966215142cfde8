import ShaderReport.Proofs.Job.Outcome

/-!
# The files that a job leaves alone

Of all the ticks of a job one can change the files, the one that writes, and there is one file that it
can change (`ChangesFile`).  It makes no directory on the way there.  If it fails, whether it was in
laying out the report or in opening the file, it changes nothing.  `job_frame` says this of every run,
whatever else happens to the files between the ticks.

A report is laid out before its file is opened.  So an asset whose path is no text leaves no file behind,
although its report would have a path.
-/

namespace ShaderReport

namespace FileSystem

/-- Nothing is other than before but the file at one location, where there was a file before or
nothing. -/
structure ChangesFile (fs fs' : FileSystem) (l : Location) : Prop where
  current : fs'.current = fs.current
  before : fs.get? l = none ∨ ∃ content, fs.get? l = some (.file content)
  after : ∃ content, fs'.get? l = some (.file content)
  others : ∀ m, m ≠ l → fs'.get? m = fs.get? m

theorem ChangesFile.directory_iff {fs fs' : FileSystem} {l : Location} (h : ChangesFile fs fs' l)
    (m : Location) : fs'.get? m = some .directory ↔ fs.get? m = some .directory := by
  by_cases hm : m = l
  · subst hm
    obtain ⟨content, hafter⟩ := h.after
    rcases h.before with hbefore | ⟨content', hbefore⟩ <;> simp [hafter, hbefore]
  · rw [h.others m hm]

theorem write_changes {fs fs' : FileSystem} {p : Path} {content : Bytes}
    (h : fs.write p content = .ok fs') :
    ∃ l, fs'.resolve .target p = .ok (.found l (.file content) false) ∧ ChangesFile fs fs' l := by
  obtain ⟨l, rfl, hbefore, hresolve⟩ := write_eq_put h
  have hne : l ≠ [] :=
    ne_nil_of_get? fs (by rcases hbefore with hbefore | ⟨c, hbefore⟩ <;> simp [hbefore])
  exact ⟨l, hresolve, rfl, hbefore, ⟨content, get?_put_self hne fs _⟩, fun m hm => get?_put_ne hm fs _⟩

end FileSystem

namespace SourceJob

open FileSystem

theorem tick_files_of_not_writing {j : SourceJob} (h : ∀ status, j.stage ≠ .write status)
    (fs : FileSystem) : (j.tick fs).2.1 = fs := by
  cases hs : j.stage with
  | load => exact (tick_load_files hs fs).1
  | scan lines next => exact (tick_scan_files hs fs).1
  | write status => exact absurd hs (h status)
  | done o => simp only [tick, hs]

/-- A writing tick ends with the path of the report, where it has put the report, or with an error, and
then it has left the files alone. -/
theorem tick_writing_cases {j : SourceJob} {status : Status} (hs : j.stage = .write status)
    (fs : FileSystem) :
    ((j.tick fs).1.outcome = some (.ok j.reportPath) ∧
      ∃ text l, (j.report status).toPretty = .ok text ∧
        (j.tick fs).2.1.resolve .target j.reportPath =
          .ok (.found l (.file (Utf8.encode text)) false) ∧
        ChangesFile fs (j.tick fs).2.1 l) ∨
      ∃ e, (j.tick fs).1.outcome = some (.error e) ∧ (j.tick fs).2.1 = fs := by
  cases hw : j.writeReport status fs with
  | ok fs' =>
    obtain ⟨text, hpretty, hwrite⟩ := writeReport_eq_ok_iff.mp hw
    obtain ⟨l, hresolve, hchanges⟩ := write_changes hwrite
    rw [tick_write_ok hs hw]
    exact Or.inl ⟨rfl, text, l, hpretty, hresolve, hchanges⟩
  | error e =>
    rw [tick_write_error hs hw]
    exact Or.inr ⟨e, rfl, rfl⟩

theorem tick_writing_of_not_text {j : SourceJob} {status : Status} (hs : j.stage = .write status)
    (h : ¬ ∃ text, j.asset.path = .ofString text) (fs : FileSystem) :
    (j.tick fs).1.outcome = some (.error (.serialize .notText)) ∧ (j.tick fs).2.1 = fs := by
  have hpretty : (j.report status).toPretty = .error .notText :=
    (Report.parse_printed (j.report status)).2.2.1.mp h
  have hw : j.writeReport status fs = .error (.serialize .notText) := by
    rw [writeReport, hpretty]
  rw [tick_write_error hs hw]
  exact ⟨rfl, rfl⟩

theorem after_writing {start : SourceJob} {files : List FileSystem} {status : Status}
    (hs : (start.after files).stage = .write status) (fs : FileSystem) (later : List FileSystem) :
    let next := ((start.after files).tick fs).1
    start.after (files ++ fs :: later) = next ∧ (∀ status', next.stage ≠ .write status') ∧
      ∀ fs', next.tick fs' = (next, fs', []) := by
  intro next
  have hcomplete : next.isComplete = true := isComplete_tick_write hs fs
  refine ⟨?_, ?_, tick_of_isComplete hcomplete⟩
  · rw [after_append]
    exact after_of_isComplete hcomplete later
  · intro status' hs'
    obtain ⟨o, ho⟩ := isComplete_iff.mp hcomplete
    rw [ho] at hs'
    cases hs'

theorem after_asset (j : SourceJob) (files : List FileSystem) : (j.after files).asset = j.asset := by
  induction files generalizing j with
  | nil => rfl
  | cons fs files ih => exact (ih (j.tick fs).1).trans (j.tick_fixed fs).1

/-- **A job changes its report and nothing else**, and that with one tick.

* No tick makes or removes a directory, and only a tick that writes changes anything at all.
* There is at most one such tick in a run: it completes the job, which does nothing any more after it.
* If it ends with a path, this is the path of the report, which now leads to a file with the whole text of
  the report.  This is the only place that has changed, and no more than a file was there before.
* If it ends with an error, the files are as they were.
* An asset whose path is no text never changes a file.  Its report has a path nevertheless, with the name
  of the asset as far as that can be shown. -/
theorem job_frame (asset : Asset) (target : BuildTarget) (pace : Pace) (dir : Path)
    (files : List FileSystem) (fs : FileSystem) :
    let start := new asset target pace dir
    let j := start.after files
    let next := (j.tick fs).1
    let fs' := (j.tick fs).2.1
    let p := ShaderReport.reportPath dir asset target
    let name := (asset.path.fileName.map Utf8.decodeLossy).getD "report"
    (∀ m, fs'.get? m = some .directory ↔ fs.get? m = some .directory) ∧
    ((∀ status, j.stage ≠ .write status) → fs' = fs) ∧
    (∀ status, j.stage = .write status →
      (∀ later, start.after (files ++ fs :: later) = next ∧ (∀ status', next.stage ≠ .write status') ∧
        ∀ files', next.tick files' = (next, files', [])) ∧
      (∃ o, next.outcome = some o) ∧
      (∀ q, next.outcome = some (.ok q) → q = p ∧ ∃ first text l, files.head? = some first ∧
        (Report.ofRead asset target (first.readText asset.path)).toPretty = .ok text ∧
        fs'.resolve .target p = .ok (.found l (.file (Utf8.encode text)) false) ∧
        ChangesFile fs fs' l) ∧
      (∀ e, next.outcome = some (.error e) → fs' = fs)) ∧
    ((¬ ∃ text, asset.path = .ofString text) → fs' = fs ∧
      ∀ status, j.stage = .write status → next.outcome = some (.error (.serialize .notText))) ∧
    p = dir.join (.ofString s!"{name}.{target.name}.json") := by
  intro start j next fs' p name
  have hpath : j.reportPath = p := by
    cases files with
    | nil => exact new_reportPath asset target pace dir
    | cons first later =>
      have hreached : Reached start _ j := reached_after_new asset target pace dir rfl
      exact hreached.reportPath_eq.trans (new_reportPath asset target pace dir)
  refine ⟨?_, fun h => tick_files_of_not_writing h fs, ?_, ?_, ?_⟩
  · intro m
    by_cases hwriting : ∃ status, j.stage = .write status
    · obtain ⟨status, hs⟩ := hwriting
      rcases tick_writing_cases hs fs with ⟨-, text, l, -, -, hchanges⟩ | ⟨e, -, hsame⟩
      · exact hchanges.directory_iff m
      · rw [show fs' = fs from hsame]
    · have hsame : fs' = fs := tick_files_of_not_writing (not_exists.mp hwriting) fs
      rw [hsame]
  · intro status hs
    refine ⟨fun later => after_writing hs fs later, ?_, ?_, ?_⟩
    · obtain ⟨o, ho⟩ := isComplete_iff.mp (isComplete_tick_write hs fs)
      exact ⟨o, by simp only [next, outcome, ho]⟩
    · intro q hq
      rcases tick_writing_cases hs fs with ⟨hout, text, l, hpretty, hresolve, hchanges⟩ | ⟨e, hout, -⟩
      · obtain rfl : j.reportPath = q := Except.ok.inj (Option.some.inj (hout.symm.trans hq))
        obtain ⟨first, hfirst⟩ := exists_first hs
        rw [(reached_after_new asset target pace dir hfirst).report_eq hs] at hpretty
        rw [← hpath]
        exact ⟨rfl, first, text, l, hfirst, hpretty, hresolve, hchanges⟩
      · cases hout.symm.trans hq
    · intro e he
      rcases tick_writing_cases hs fs with ⟨hout, -⟩ | ⟨e', -, hsame⟩
      · cases hout.symm.trans he
      · exact hsame
  · intro hno
    have hasset : ¬ ∃ text, j.asset.path = .ofString text := by
      rw [show j.asset = asset from after_asset start files]
      exact hno
    refine ⟨?_, fun status hs => (tick_writing_of_not_text hs hasset fs).1⟩
    by_cases hwriting : ∃ status, j.stage = .write status
    · obtain ⟨status, hs⟩ := hwriting
      exact (tick_writing_of_not_text hs hasset fs).2
    · exact tick_files_of_not_writing (not_exists.mp hwriting) fs
  · cases hname : asset.path.fileName <;> simp only [p, name, ShaderReport.reportPath, hname] <;> rfl

/-! ### A report behind a link -/

/-- The root, which holds a link where the report of the shader goes, and nothing else. -/
def linkedCellar : FileSystem :=
  FileSystem.empty.put [Utf8.encode "Lit.shader.offline.json"] (.link (.ofString "r.json"))

/-- The report is written to where the link leads to, and the link stays. -/
theorem job_frame_cellar :
    FileSystem.empty.createLink (.ofString "Lit.shader.offline.json") (.ofString "r.json") =
        .ok linkedCellar ∧
      let fs' := ((cleaning.after [cellar, linkedCellar]).tick linkedCellar).2.1
      fs'.get? [Utf8.encode "Lit.shader.offline.json"] = some (.link (.ofString "r.json")) ∧
        ∃ text l, fs'.resolve .target (.ofString "Lit.shader.offline.json") =
            .ok (.found l (.file (Utf8.encode text)) false) ∧
          ChangesFile linkedCellar fs' l := by
  have hfree : FileSystem.empty.resolve .entry (.ofString "Lit.shader.offline.json") =
      .ok (.free [Utf8.encode "Lit.shader.offline.json"]) :=
    resolve_eq_ok_iff.mpr ⟨⟨by decide, by decide, fun _ => by decide⟩,
      .free ⟨by decide, by decide, by decide, by decide⟩ rfl⟩
  have hlink : FileSystem.empty.createLink (.ofString "Lit.shader.offline.json") (.ofString "r.json") =
      .ok linkedCellar := by
    rw [createLink, hfree]
    rfl
  have hfollow : linkedCellar.resolve .writing (.ofString "Lit.shader.offline.json") =
      .ok (.free [Utf8.encode "r.json"]) :=
    resolve_eq_ok_iff.mpr ⟨⟨by decide, by decide, fun _ => by decide⟩,
      .follow ⟨by decide, by decide, by decide, by decide⟩ rfl (by decide)
        (.free ⟨by decide, by decide, by decide, by decide⟩ rfl)⟩
  have hplace : linkedCellar.placeOfFile (.ofString "Lit.shader.offline.json") =
      .ok [Utf8.encode "r.json"] := by
    rw [placeOfFile, hfollow]
    rfl
  have hout := outcome_cleaning hplace
  obtain ⟨status, hs⟩ := writes_cleaning linkedCellar
  obtain ⟨-, -, hwriting, -, -⟩ := job_frame ⟨.shader, .ofString "Lit.shader"⟩ .offline .standard ⟨[]⟩
    [cellar, linkedCellar] linkedCellar
  obtain ⟨-, -, hok, -⟩ := hwriting status hs
  obtain ⟨-, -, text, l, -, -, hresolve, hchanges⟩ := hok _ hout
  rw [reportPath_cleaning] at hresolve
  refine ⟨hlink, ?_, text, l, hresolve, hchanges⟩
  -- Where the link is there was neither a file before nor nothing.
  refine (hchanges.others _ ?_).trans rfl
  rintro rfl
  rcases hchanges.before with hnone | ⟨content, hfile⟩
  · cases hnone
  · cases hfile

end SourceJob

end ShaderReport
