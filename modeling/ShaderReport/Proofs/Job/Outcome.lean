import ShaderReport.Proofs.FileSystem.Access
import ShaderReport.Proofs.Job.Timing

/-!
# What a job shows of itself

A job has four faces: its outcome, its failure, its message and the report that it wrote.  They are
fed from two places, for a read error is kept for the failure and goes into the report as well, and an
error of the writing tick may come on top of it.  `observers_agree` says that they never contradict each
other.

A job that is complete has gone through the tick that writes (`exists_writing_tick`), and what this tick
left was settled by the first one (`Reached.eq_done`).  So the report is `Report.ofRead`, and
`Report.ofRead_status` says of it what the failure says of the job.
-/

namespace ShaderReport

/-- The error of a source that could not be read is the error of its report, and only of such a
report. -/
theorem Report.ofRead_status (asset : Asset) (target : BuildTarget) (read : Except FileError String)
    (pace : Pace) (dir : Path) :
    let failure := ((SourceJob.new asset target pace dir).settled read).readError.map JobError.message
    let r := Report.ofRead asset target read
    r.hasSucceeded = failure.isNone ∧
      (∀ e, failure = some e → r.status = .failed e ∧ r.analysis = .empty) ∧
      r.variantCount = r.analysis.variantCount := by
  cases read with
  | ok text =>
    refine ⟨rfl, ?_, rfl⟩
    intro e he
    cases he
  | error cause =>
    refine ⟨rfl, ?_, rfl⟩
    intro e he
    cases he
    exact ⟨rfl, rfl⟩

namespace SourceJob

/-! ### Runs of ticks -/

theorem after_append (j : SourceJob) (files later : List FileSystem) :
    j.after (files ++ later) = (j.after files).after later :=
  List.foldl_append

theorem after_of_isComplete {j : SourceJob} (h : j.isComplete = true) (files : List FileSystem) :
    j.after files = j := by
  induction files with
  | nil => rfl
  | cons fs files ih =>
    have htick : (j.tick fs).1 = j := by rw [tick_of_isComplete h]
    rw [after, List.foldl_cons, htick]
    exact ih

/-- **A job becomes complete by its writing tick** and by no other one, and stays as this tick left
it. -/
theorem exists_writing_tick {start : SourceJob} (hinc : start.isComplete = false)
    {files : List FileSystem} (h : (start.after files).isComplete = true) :
    ∃ before fs later status, files = before ++ fs :: later ∧
      (start.after before).stage = .write status ∧
      start.after files = ((start.after before).tick fs).1 := by
  induction files generalizing start with
  | nil => cases hinc.symm.trans h
  | cons fs files ih =>
    -- A tick of another stage leaves the job incomplete, and the rest of the run still has to write.
    have hlater : (start.tick fs).1.isComplete = false →
        ∃ before fs' later status, fs :: files = before ++ fs' :: later ∧
          (start.after before).stage = .write status ∧
          start.after (fs :: files) = ((start.after before).tick fs').1 := by
      intro hnext
      obtain ⟨before, fs', later, status, rfl, hs, heq⟩ := ih hnext h
      exact ⟨fs :: before, fs', later, status, rfl, hs, heq⟩
    cases hs : start.stage with
    | load => exact hlater (tick_load_files hs fs).2
    | scan lines next => exact hlater (tick_scan_files hs fs).2
    | write status =>
      refine ⟨[], fs, files, status, rfl, hs, ?_⟩
      exact after_of_isComplete (isComplete_tick_write hs fs) files
    | done outcome =>
      rw [isComplete, SourceJob.outcome, hs] at hinc
      cases hinc

theorem Reached.eq_done {start j : SourceJob} {read : Except FileError String}
    (h : Reached start read j) {o : Except JobError Path} (ho : j.outcome = some o) :
    j = { start.settled read with stage := .done o } ∧ ∀ p, o = .ok p → p = start.reportPath := by
  cases h with
  | scan text next hr hn => cases ho
  | write => cases ho
  | done o' ho' =>
    obtain rfl : o' = o := Option.some.inj ho
    exact ⟨rfl, ho'⟩

theorem stage_of_outcome {j : SourceJob} {o : Except JobError Path} (h : j.outcome = some o) :
    j.stage = .done o := by
  cases hs : j.stage with
  | load => simp [outcome, hs] at h
  | scan lines next => simp [outcome, hs] at h
  | write status => simp [outcome, hs] at h
  | done o' =>
    simp only [outcome, hs, Option.some.injEq] at h
    rw [h]

theorem isComplete_iff {j : SourceJob} : j.isComplete = true ↔ ∃ o, j.stage = .done o := by
  rw [isComplete, Option.isSome_iff_exists]
  constructor
  · rintro ⟨o, ho⟩
    exact ⟨o, stage_of_outcome ho⟩
  · rintro ⟨o, ho⟩
    exact ⟨o, by simp only [outcome, ho]⟩

theorem failure_eq_none {j : SourceJob} (h : j.isComplete = false) : j.failure = none := by
  cases hs : j.stage with
  | load => simp only [failure, hs]
  | scan lines next => simp only [failure, hs]
  | write status => simp only [failure, hs]
  | done o => exact absurd (isComplete_iff.mpr ⟨o, hs⟩) (by simp [h])

theorem shows_error {j : SourceJob} {e : JobError} (h : j.outcome = some (.error e)) :
    j.failure = some e.message ∧ j.message = e.message := by
  simp only [failure, message, stage_of_outcome h, and_self]

/-! ### What was written -/

/-- The run of a job went through a tick that wrote, and after it the path it wrote to holds a text. -/
def Wrote (start : SourceJob) (files : List FileSystem) (p : Path) (text : String) : Prop :=
  ∃ before fs later status, files = before ++ fs :: later ∧
    (start.after before).stage = .write status ∧
    ((start.after before).tick fs).1.outcome = some (.ok p) ∧
    ((start.after before).tick fs).2.1.readText p = .ok text

theorem exists_written {j : SourceJob} {status : Status} (hs : j.stage = .write status)
    {fs : FileSystem} {p : Path} (h : (j.tick fs).1.outcome = some (.ok p)) :
    p = j.reportPath ∧ ∃ text, (j.report status).toPretty = .ok text ∧
      fs.write p (Utf8.encode text) = .ok (j.tick fs).2.1 ∧
      (j.tick fs).2.1.readText p = .ok text := by
  cases hw : j.writeReport status fs with
  | error e =>
    rw [tick_write_error hs hw] at h
    cases h
  | ok fs' =>
    rw [tick_write_ok hs hw] at h ⊢
    cases h
    obtain ⟨text, hpretty, hwrite⟩ := writeReport_eq_ok_iff.mp hw
    have hread : fs'.readText j.reportPath = .ok text :=
      FileSystem.readText_eq_ok_iff.mpr (FileSystem.write_eq_ok hwrite).2
    exact ⟨rfl, text, hpretty, hwrite, hread⟩

theorem reached_after_new {files : List FileSystem} (asset : Asset) (target : BuildTarget)
    (pace : Pace) (dir : Path) {first : FileSystem} (h : files.head? = some first) :
    Reached (new asset target pace dir) (first.readText asset.path)
      ((new asset target pace dir).after files) := by
  obtain ⟨later, rfl⟩ := List.head?_eq_some_iff.mp h
  exact (reached_tick_new asset target pace dir first).after later

theorem Reached.outcome_tick {asset : Asset} {target : BuildTarget} {pace : Pace} {dir : Path}
    {read : Except FileError String} {j : SourceJob} (h : Reached (new asset target pace dir) read j)
    {status : Status} (hs : j.stage = .write status) {text : String}
    (htext : (Report.ofRead asset target read).toPretty = .ok text) {fs fs' : FileSystem}
    (hw : fs.write (ShaderReport.reportPath dir asset target) (Utf8.encode text) = .ok fs') :
    (j.tick fs).1.outcome = some (.ok (ShaderReport.reportPath dir asset target)) := by
  have hpath : j.reportPath = ShaderReport.reportPath dir asset target :=
    h.reportPath_eq.trans (new_reportPath asset target pace dir)
  rw [← hpath] at hw ⊢
  have hreport : j.writeReport status fs = .ok fs' :=
    writeReport_eq_ok_iff.mpr ⟨text, (h.report_eq hs).symm ▸ htext, hw⟩
  rw [tick_write_ok hs hreport]
  rfl

theorem exists_first {asset : Asset} {target : BuildTarget} {pace : Pace} {dir : Path}
    {files : List FileSystem} {status : Status}
    (hs : ((new asset target pace dir).after files).stage = .write status) :
    ∃ first, files.head? = some first := by
  cases files with
  | nil => cases hs
  | cons first later => exact ⟨first, rfl⟩

/-- **What a run wrote is the report of what its first tick read**, and it parses back as this
report. -/
theorem Wrote.parse_eq {asset : Asset} {target : BuildTarget} {pace : Pace} {dir : Path}
    {files : List FileSystem} {p : Path} {text : String} {first : FileSystem}
    (h : (new asset target pace dir).Wrote files p text) (hfirst : files.head? = some first) :
    Report.parse text = .ok (Report.ofRead asset target (first.readText asset.path)) := by
  obtain ⟨before, fs, later, status, rfl, hs, hout, hread⟩ := h
  obtain ⟨first', hfirst'⟩ := exists_first hs
  obtain rfl : first' = first := by
    obtain ⟨rest, rfl⟩ := List.head?_eq_some_iff.mp hfirst'
    exact Option.some.inj hfirst
  obtain ⟨rfl, text', hpretty, -, hread'⟩ := exists_written hs hout
  obtain rfl : text' = text := Except.ok.inj (hread'.symm.trans hread)
  rw [(reached_after_new asset target pace dir hfirst').report_eq hs] at hpretty
  obtain ⟨text'', hpretty'', hparse⟩ :=
    (Report.parse_printed _).1.mp (Report.exists_text_of_toPretty hpretty)
  obtain rfl : text'' = text' := Except.ok.inj (hpretty''.symm.trans hpretty)
  exact hparse

theorem exists_wrote {start : SourceJob} (hinc : start.isComplete = false) {files : List FileSystem}
    {p : Path} (h : (start.after files).outcome = some (.ok p)) : ∃ text, start.Wrote files p text := by
  have hcomplete : (start.after files).isComplete = true :=
    isComplete_iff.mpr ⟨_, stage_of_outcome h⟩
  obtain ⟨before, fs, later, status, hfiles, hs, heq⟩ := exists_writing_tick hinc hcomplete
  rw [heq] at h
  obtain ⟨rfl, text, -, -, hread⟩ := exists_written hs h
  exact ⟨text, before, fs, later, status, hfiles, hs, h, hread⟩

/-- **Outcome, failure, message and report of a job agree**, whatever becomes of the files between its
ticks.

* There is an outcome just if the job is complete, and no failure before that.
* An error for an outcome is the failure and the message, also if the source could not be read before.
* A path for an outcome is that of the report, and the message names it.  The writing tick has put a text
  there, and this parses back as a report that has succeeded just if the job has no failure.  If there is
  one, the report has failed with the same error and has an empty analysis.  Its number of variants is
  that of its analysis. -/
theorem observers_agree (asset : Asset) (target : BuildTarget) (pace : Pace) (dir : Path)
    (files : List FileSystem) :
    let start := new asset target pace dir
    let j := start.after files
    (j.outcome.isSome = j.isComplete ∧ (j.isComplete = true ↔ ∃ o, j.stage = .done o)) ∧
    (j.isComplete = false → j.failure = none) ∧
    (∀ e, j.outcome = some (.error e) → j.failure = some e.message ∧ j.message = e.message) ∧
    ∀ p, j.outcome = some (.ok p) →
      p = j.reportPath ∧ p = ShaderReport.reportPath dir asset target ∧
      j.message = s!"wrote report to '{p.display}'" ∧
      (∃ text, start.Wrote files p text) ∧
      ∀ text, start.Wrote files p text → ∃ r, Report.parse text = .ok r ∧
        r.hasSucceeded = j.failure.isNone ∧
        (∀ e, j.failure = some e → r.status = .failed e ∧ r.analysis = .empty) ∧
        r.variantCount = r.analysis.variantCount := by
  intro start j
  refine ⟨⟨rfl, isComplete_iff⟩, failure_eq_none, fun e => shows_error, ?_⟩
  intro p hp
  cases files with
  | nil => cases hp
  | cons first later =>
    have hreached : Reached start (first.readText asset.path) j :=
      reached_after_new asset target pace dir rfl
    obtain ⟨hj, hpath⟩ := hreached.eq_done hp
    have hreport : p = ShaderReport.reportPath dir asset target :=
      (hpath p rfl).trans (new_reportPath asset target pace dir)
    have hfailure : j.failure =
        (start.settled (first.readText asset.path)).readError.map JobError.message := by
      rw [hj]
      rfl
    refine ⟨(hpath p rfl).trans hreached.reportPath_eq.symm, hreport, ?_, exists_wrote rfl hp, ?_⟩
    · simp only [message, stage_of_outcome hp]
    · intro text htext
      refine ⟨_, htext.parse_eq rfl, ?_⟩
      rw [hfailure]
      exact Report.ofRead_status asset target (first.readText asset.path) pace dir

/-! ### A source that is removed -/

/-- The root, which holds a shader. -/
def cellar : FileSystem :=
  ⟨[([Utf8.encode "Lit.shader"], .file (Utf8.encode "Pass\nPass"))], []⟩

/-- A job for the shader. -/
def cleaning : SourceJob :=
  .new ⟨.shader, .ofString "Lit.shader"⟩ .offline .standard ⟨[]⟩

theorem resolve_cellar {aim : Aim} (ha : aim = .target ∨ aim = .entry) :
    cellar.resolve aim (.ofString "Lit.shader") =
      .ok (.found [Utf8.encode "Lit.shader"] (.file (Utf8.encode "Pass\nPass")) false) := by
  rw [FileSystem.resolve_eq_ok_iff]
  rcases ha with rfl | rfl <;>
    exact ⟨⟨by decide, by decide, fun _ => by decide⟩,
      .file ⟨by decide, by decide, by decide, by decide⟩ rfl⟩

theorem readText_cellar : cellar.readText (.ofString "Lit.shader") = .ok "Pass\nPass" := by
  rw [FileSystem.readText_eq_ok_iff, FileSystem.read_eq_ok_iff]
  exact ⟨_, resolve_cellar (.inl rfl)⟩

theorem reportPath_cleaning :
    ShaderReport.reportPath ⟨[]⟩ ⟨.shader, .ofString "Lit.shader"⟩ .offline =
      .ofString "Lit.shader.offline.json" := by
  decide +kernel

/-- The job takes three ticks, and the last one writes. -/
theorem writes_cleaning (fs : FileSystem) :
    ∃ status, (cleaning.after [cellar, fs]).stage = .write status := by
  have hlifetime : lifetime .standard (.ok "Pass\nPass") = 3 := by decide +kernel
  have hleft : (cleaning.after [cellar, fs]).ticksLeft fs = 1 := by
    rw [ticksLeft_after, cleaning, ticksLeft_new, readText_cellar, hlifetime]
    rfl
  exact writes_of_ticksLeft hleft

theorem outcome_cleaning {fs : FileSystem} {l : Location}
    (h : fs.placeOfFile (.ofString "Lit.shader.offline.json") = .ok l) :
    (cleaning.after [cellar, fs, fs]).outcome = some (.ok (.ofString "Lit.shader.offline.json")) := by
  obtain ⟨status, hs⟩ := writes_cleaning fs
  have hreached : Reached cleaning (cellar.readText (.ofString "Lit.shader"))
      (cleaning.after [cellar, fs]) := reached_after_new _ _ _ _ rfl
  obtain ⟨text, htext⟩ : ∃ text, (Report.ofRead ⟨.shader, .ofString "Lit.shader"⟩ .offline
      (.ok "Pass\nPass")).toPretty = .ok text :=
    ⟨_, congrArg (Except.map Json.Value.toPretty) (Report.toJson_of_asset rfl)⟩
  rw [readText_cellar] at hreached
  rw [← reportPath_cleaning] at h ⊢
  exact hreached.outcome_tick hs htext (congrArg (Except.map fun l => fs.put l _) h)

/-- The shader is removed after it was read.  Its report is written, and tells of a success. -/
theorem observers_agree_cellar :
    cellar.remove (.ofString "Lit.shader") = .ok .empty ∧
      let j := cleaning.after [cellar, .empty, .empty]
      j.message = "wrote report to 'Lit.shader.offline.json'" ∧
        ∃ text r, cleaning.Wrote [cellar, .empty, .empty] (.ofString "Lit.shader.offline.json") text ∧
          Report.parse text = .ok r ∧ r.hasSucceeded = true ∧ j.failure = none := by
  have hremove : cellar.remove (.ofString "Lit.shader") = .ok .empty := by
    rw [FileSystem.remove, resolve_cellar (.inr rfl)]
    rfl
  have hfree : FileSystem.empty.resolve .writing (.ofString "Lit.shader.offline.json") =
      .ok (.free [Utf8.encode "Lit.shader.offline.json"]) :=
    FileSystem.resolve_eq_ok_iff.mpr ⟨⟨by decide, by decide, fun _ => by decide⟩,
      .free ⟨by decide, by decide, by decide, by decide⟩ rfl⟩
  have hplace : FileSystem.empty.placeOfFile (.ofString "Lit.shader.offline.json") =
      .ok [Utf8.encode "Lit.shader.offline.json"] := by
    rw [FileSystem.placeOfFile, hfree]
    rfl
  have hout := outcome_cleaning hplace
  obtain ⟨-, -, -, hok⟩ := observers_agree ⟨.shader, .ofString "Lit.shader"⟩ .offline .standard ⟨[]⟩
    [cellar, .empty, .empty]
  obtain ⟨-, -, hmessage, ⟨text, hwrote⟩, hreads⟩ := hok _ hout
  obtain ⟨r, hparse, hsucceeded, -, -⟩ := hreads text hwrote
  have hr : Report.ofRead _ _ _ = r := Except.ok.inj ((hwrote.parse_eq rfl).symm.trans hparse)
  have htrue : r.hasSucceeded = true := by
    rw [← hr, readText_cellar]
    rfl
  have hshown : (Path.ofString "Lit.shader.offline.json").display = "Lit.shader.offline.json" := by
    decide +kernel
  rw [hshown] at hmessage
  refine ⟨hremove, hmessage, text, r, hwrote, hparse, htrue, ?_⟩
  rw [htrue] at hsucceeded
  exact Option.isNone_iff_eq_none.mp hsucceeded.symm

end SourceJob

end ShaderReport
