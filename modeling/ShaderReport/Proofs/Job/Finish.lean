import ShaderReport.Proofs.Job.Slices
import ShaderReport.Proofs.Report.RoundTrip

/-!
# Finishing a job

A job that is ticked until it is complete, with nothing else going on, writes once.  `finish_new` says
that all of a new job comes down to the one tick that writes, `finish_new_ok` what that means for a job
that does not fail, and `finish_new_failure_iff` when it fails.
-/

namespace ShaderReport.SourceJob

/-! ### Tick by tick -/

theorem finish_of_isComplete {j : SourceJob} (h : j.isComplete = true) (fs : FileSystem) :
    j.finish fs = (0, j, fs, []) := by
  rw [finish, ticksLeft_eq_zero.mpr h]
  rfl

theorem finish_tick {j : SourceJob} (h : j.isComplete = false) (fs : FileSystem) :
    j.finish fs =
      let r := (j.tick fs).1.finish (j.tick fs).2.1
      (r.1 + 1, r.2.1, r.2.2.1, (j.tick fs).2.2 ++ r.2.2.2) := by
  have hne : j.ticksLeft fs ≠ 0 := fun hz => by
    rw [ticksLeft_eq_zero, h] at hz
    cases hz
  obtain ⟨k, hk⟩ := Nat.exists_eq_succ_of_ne_zero hne
  have hleft := ticksLeft_tick j fs (j.tick fs).2.1
  rw [hk, Nat.succ_sub_one] at hleft
  rw [finish, finish, hk, hleft, finishWithin, if_neg (by simp [h])]

theorem tick_scan_files {j : SourceJob} {lines : List (List Char)} {next : Nat}
    (hs : j.stage = .scan lines next) (fs : FileSystem) :
    (j.tick fs).2.1 = fs ∧ (j.tick fs).1.isComplete = false := by
  simp only [tick, hs, scan, isComplete, outcome, true_and]
  by_cases hend : min (next + j.pace.lines) lines.length = lines.length
  · rw [if_pos hend]
    rfl
  · rw [if_neg hend]
    rfl

theorem tick_load_files {j : SourceJob} (hs : j.stage = .load) (fs : FileSystem) :
    (j.tick fs).2.1 = fs ∧ (j.tick fs).1.isComplete = false := by
  cases hr : fs.readText j.asset.path <;>
    simp only [tick, hs, load, hr, isComplete, outcome, true_and] <;> rfl

theorem tick_write_ok {j : SourceJob} {status : Status} {fs fs' : FileSystem}
    (hs : j.stage = .write status) (hw : j.writeReport status fs = .ok fs') :
    j.tick fs = ({ j with stage := .done (.ok j.reportPath) }, fs', []) := by
  simp only [tick, hs, hw]

theorem tick_write_error {j : SourceJob} {status : Status} {fs : FileSystem} {e : JobError}
    (hs : j.stage = .write status) (hw : j.writeReport status fs = .error e) :
    j.tick fs = ({ j with stage := .done (.error e) }, fs, [⟨.error, e.message⟩]) := by
  simp only [tick, hs, hw]

/-- Whether a record is one that a job writes: an error, or the warning of a source that cannot be
read. -/
def Logs (r : LogRecord) : Prop :=
  r.severity = .error ∨ ∃ path cause, r = ⟨.warning, (JobError.readSource path cause).message⟩

theorem logs_of_mem_tick {j : SourceJob} {fs : FileSystem} {r : LogRecord}
    (h : r ∈ (j.tick fs).2.2) : Logs r := by
  rw [tick] at h
  cases hs : j.stage with
  | load =>
    cases hr : fs.readText j.asset.path with
    | ok text => simp [hs, load, hr] at h
    | error cause =>
      simp only [hs, load, hr, List.mem_singleton] at h
      exact Or.inr ⟨_, cause, h⟩
  | scan lines next => simp [hs] at h
  | write status =>
    cases hw : j.writeReport status fs with
    | ok fs' => simp [hs, hw] at h
    | error e =>
      simp only [hs, hw, List.mem_singleton] at h
      exact Or.inl (h ▸ rfl)
  | done outcome => simp [hs] at h

theorem isComplete_tick_write {j : SourceJob} {status : Status} (hs : j.stage = .write status)
    (fs : FileSystem) : (j.tick fs).1.isComplete = true := by
  cases hw : j.writeReport status fs with
  | ok fs' =>
    rw [tick_write_ok hs hw]
    rfl
  | error e =>
    rw [tick_write_error hs hw]
    rfl

theorem tick_fixed (j : SourceJob) (fs : FileSystem) :
    (j.tick fs).1.asset = j.asset ∧ (j.tick fs).1.target = j.target ∧
      (j.tick fs).1.reportPath = j.reportPath := by
  cases hs : j.stage with
  | load => cases hr : fs.readText j.asset.path <;> simp [tick, hs, load, hr]
  | scan lines next => simp [tick, hs, scan]
  | write status =>
    cases hw : j.writeReport status fs with
    | ok fs' => simp [tick_write_ok hs hw]
    | error e => simp [tick_write_error hs hw]
  | done outcome => simp [tick, hs]

theorem tick_pace (j : SourceJob) (fs : FileSystem) : (j.tick fs).1.pace = j.pace := by
  cases hs : j.stage with
  | load => cases hr : fs.readText j.asset.path <;> simp [tick, hs, load, hr]
  | scan lines next => simp [tick, hs, scan]
  | write status =>
    cases hw : j.writeReport status fs with
    | ok fs' => simp [tick_write_ok hs hw]
    | error e => simp [tick_write_error hs hw]
  | done outcome => simp [tick, hs]

theorem finishWithin_pace (limit : Nat) (j : SourceJob) (fs : FileSystem) :
    (finishWithin limit j fs).2.1.pace = j.pace := by
  induction limit generalizing j fs with
  | zero => rfl
  | succ limit ih =>
    rw [finishWithin]
    split
    · rfl
    · exact (ih _ _).trans (j.tick_pace fs)

theorem after_pace (j : SourceJob) (files : List FileSystem) : (j.after files).pace = j.pace := by
  induction files generalizing j with
  | nil => rfl
  | cons fs files ih => exact (ih (j.tick fs).1).trans (j.tick_pace fs)

/-! ### The whole of a job -/

/-- The job once it is about to write. -/
def writing (j : SourceJob) (read : Except FileError String) : SourceJob :=
  { j.settled read with stage := .write (j.statusOf read) }

theorem writing_stage (j : SourceJob) (read : Except FileError String) :
    (j.writing read).stage = .write (j.statusOf read) :=
  rfl

theorem Reached.finish {start j : SourceJob} {read : Except FileError String}
    (h : Reached start read j) (hinc : j.isComplete = false) (fs : FileSystem) :
    (j.finish fs).2.1 = ((start.writing read).tick fs).1 ∧
      (j.finish fs).2.2.1 = ((start.writing read).tick fs).2.1 := by
  -- On the ticks that are left, for a tick that scans leaves fewer of them and the same files.
  induction hk : j.ticksLeft fs using Nat.strongRecOn generalizing j with
  | ind k ih =>
    rw [finish_tick hinc]
    cases hs : j.stage with
    | load => cases h <;> cases hs
    | done outcome =>
      rw [isComplete, SourceJob.outcome, hs] at hinc
      cases hinc
    | scan lines next =>
      obtain ⟨hfiles, hnext⟩ := tick_scan_files hs fs
      have hleft := ticksLeft_tick j fs fs
      have hpos : j.ticksLeft fs ≠ 0 := fun hz => by
        rw [ticksLeft_eq_zero, hinc] at hz
        cases hz
      rw [hfiles]
      exact ih _ (by omega) (h.tick fs) hnext hleft
    | write status =>
      have hj : j = start.writing read := by
        cases h with
        | scan text next hr hn => cases hs
        | write => rfl
        | done outcome ho => cases hs
      rw [hj, finish_of_isComplete (isComplete_tick_write (writing_stage _ _) fs)]
      exact ⟨rfl, rfl⟩

/-- **A new job ends with the tick that writes what its first tick read.** -/
theorem finish_new (asset : Asset) (target : BuildTarget) (pace : Pace) (dir : Path)
    (fs : FileSystem) :
    let w := (new asset target pace dir).writing (fs.readText asset.path)
    ((new asset target pace dir).finish fs).2.1 = (w.tick fs).1 ∧
      ((new asset target pace dir).finish fs).2.2.1 = (w.tick fs).2.1 := by
  obtain ⟨hfiles, hnext⟩ := tick_load_files (j := new asset target pace dir) rfl fs
  rw [finish_tick rfl, hfiles]
  exact (reached_tick_new asset target pace dir fs).finish hnext fs

theorem writeReport_eq_ok_iff {j : SourceJob} {status : Status} {fs fs' : FileSystem} :
    j.writeReport status fs = .ok fs' ↔ ∃ text, (j.report status).toPretty = .ok text ∧
      fs.write j.reportPath (Utf8.encode text) = .ok fs' := by
  rw [writeReport]
  cases ht : (j.report status).toPretty with
  | error cause => simp
  | ok text => cases hw : fs.write j.reportPath (Utf8.encode text) <;> simp [hw]

theorem new_reportPath (asset : Asset) (target : BuildTarget) (pace : Pace) (dir : Path) :
    (new asset target pace dir).reportPath = ShaderReport.reportPath dir asset target := by
  rw [new]

theorem writing_fixed (j : SourceJob) (read : Except FileError String) :
    (j.writing read).asset = j.asset ∧ (j.writing read).target = j.target ∧
      (j.writing read).reportPath = j.reportPath := by
  cases read <;> exact ⟨rfl, rfl, rfl⟩

theorem writeReport_writing_new {asset : Asset} {target : BuildTarget} {pace : Pace} {dir : Path}
    {read : Except FileError String} {fs fs' : FileSystem} :
    ((new asset target pace dir).writing read).writeReport
        ((new asset target pace dir).statusOf read) fs = .ok fs' ↔
      ∃ report, (Report.ofRead asset target read).toPretty = .ok report ∧
        fs.write (ShaderReport.reportPath dir asset target) (Utf8.encode report) = .ok fs' := by
  have hreached : Reached (new asset target pace dir) read
    ((new asset target pace dir).writing read) := .write
  rw [writeReport_eq_ok_iff, hreached.report_eq (writing_stage _ _), hreached.reportPath_eq,
    new_reportPath]

/-- **A new job that does not fail has read its source and written its report**, and changed nothing
else. -/
theorem finish_new_ok {asset : Asset} {target : BuildTarget} {pace : Pace} {dir : Path}
    {fs : FileSystem} (h : ((new asset target pace dir).finish fs).2.1.failure = none) :
    ∃ text report, fs.readText asset.path = .ok text ∧
      (Report.ofAnalysis asset target .succeeded (.ofText text)).toPretty = .ok report ∧
      fs.write (ShaderReport.reportPath dir asset target) (Utf8.encode report) =
        .ok ((new asset target pace dir).finish fs).2.2.1 := by
  obtain ⟨hjob, hfiles⟩ := finish_new asset target pace dir fs
  rw [hjob] at h
  rw [hfiles]
  cases hw : ((new asset target pace dir).writing (fs.readText asset.path)).writeReport
      ((new asset target pace dir).statusOf (fs.readText asset.path)) fs with
  | error e =>
    rw [tick_write_error (writing_stage _ _) hw] at h
    cases h
  | ok fs' =>
    rw [tick_write_ok (writing_stage _ _) hw] at h ⊢
    obtain ⟨report, hreport, hwrite⟩ := writeReport_writing_new.mp hw
    cases hr : fs.readText asset.path with
    | error cause =>
      rw [hr] at h
      cases h
    | ok text =>
      rw [hr] at hreport
      exact ⟨text, report, rfl, hreport, hwrite⟩

theorem finish_new_failure {asset : Asset} {target : BuildTarget} {dir : Path} {fs fs' : FileSystem}
    {text report : String} (hr : fs.readText asset.path = .ok text)
    (ht : (Report.ofAnalysis asset target .succeeded (.ofText text)).toPretty = .ok report)
    (hw : fs.write (ShaderReport.reportPath dir asset target) (Utf8.encode report) = .ok fs')
    (pace : Pace) : ((new asset target pace dir).finish fs).2.1.failure = none := by
  have hread : (Report.ofRead asset target (.ok text)).toPretty = .ok report := ht
  have hwrite : ((new asset target pace dir).writing (.ok text)).writeReport _ fs = .ok fs' :=
    writeReport_writing_new.mpr ⟨report, hread, hw⟩
  rw [(finish_new asset target pace dir fs).1, hr, tick_write_ok (writing_stage _ _) hwrite]
  rfl

/-- What makes the job of an asset fail in given files.  A source that cannot be read gets a report all
the same, and that may fail as well. -/
inductive Fails (asset : Asset) (target : BuildTarget) (dir : Path) (fs : FileSystem) : Prop where
  | read {cause : FileError} (h : fs.readText asset.path = .error cause)
  | serialize {cause : PathError}
      (h : (Report.ofRead asset target (fs.readText asset.path)).toPretty = .error cause)
  | write {report : String} {cause : FileError}
      (hr : (Report.ofRead asset target (fs.readText asset.path)).toPretty = .ok report)
      (h : fs.write (ShaderReport.reportPath dir asset target) (Utf8.encode report) = .error cause)

/-- **A finished job has a failure just if reading, serializing or writing failed.** -/
theorem finish_new_failure_iff (asset : Asset) (target : BuildTarget) (pace : Pace) (dir : Path)
    (fs : FileSystem) :
    ((new asset target pace dir).finish fs).2.1.failure.isSome = true ↔ Fails asset target dir fs := by
  constructor
  · intro hfailure
    cases hr : fs.readText asset.path with
    | error cause => exact .read hr
    | ok text =>
      cases ht : (Report.ofAnalysis asset target .succeeded (.ofText text)).toPretty with
      | error cause => exact .serialize (by rw [hr]; exact ht)
      | ok report =>
        cases hw : fs.write (ShaderReport.reportPath dir asset target) (Utf8.encode report) with
        | error cause => exact .write (by rw [hr]; exact ht) hw
        | ok fs' =>
          rw [finish_new_failure hr ht hw pace] at hfailure
          cases hfailure
  · intro hfails
    cases hfailure : ((new asset target pace dir).finish fs).2.1.failure with
    | some failure => rfl
    | none =>
      obtain ⟨text, report, hr, ht, hw⟩ := finish_new_ok hfailure
      have hreport : (Report.ofRead asset target (fs.readText asset.path)).toPretty = .ok report := by
        rw [hr]
        exact ht
      cases hfails with
      | read h => exact nomatch hr.symm.trans h
      | serialize h => exact nomatch hreport.symm.trans h
      | write hr' h =>
        obtain rfl := Except.ok.inj (hreport.symm.trans hr')
        exact nomatch hw.symm.trans h

theorem finish_new_files (asset : Asset) (target : BuildTarget) (pace : Pace) (dir : Path)
    (fs : FileSystem) :
    ((new asset target pace dir).finish fs).2.2.1 =
      (Report.ofRead asset target (fs.readText asset.path)).deliver
        (ShaderReport.reportPath dir asset target) fs := by
  have hw : Reached (new asset target pace dir) (fs.readText asset.path)
    ((new asset target pace dir).writing (fs.readText asset.path)) := .write
  rw [(finish_new asset target pace dir fs).2, files_of_write (writing_stage _ _),
    hw.report_eq (writing_stage _ _), hw.reportPath_eq, new_reportPath]

theorem finish_new_job (asset : Asset) (target : BuildTarget) (pace : Pace) (dir : Path)
    (fs : FileSystem) :
    let j := ((new asset target pace dir).finish fs).2.1
    j.isComplete = true ∧ j.asset = asset ∧ j.target = target ∧
      j.reportPath = ShaderReport.reportPath dir asset target := by
  intro j
  have hj : j = _ := (finish_new asset target pace dir fs).1
  rw [hj]
  obtain ⟨hasset, htarget, hpath⟩ := tick_fixed
    ((new asset target pace dir).writing (fs.readText asset.path)) fs
  obtain ⟨hasset', htarget', hpath'⟩ :=
    writing_fixed (new asset target pace dir) (fs.readText asset.path)
  exact ⟨isComplete_tick_write (writing_stage _ _) fs, hasset.trans hasset', htarget.trans htarget',
    hpath.trans (hpath'.trans (new_reportPath asset target pace dir))⟩

theorem finish_new_outcome {asset : Asset} {target : BuildTarget} {pace : Pace} {dir : Path}
    {fs : FileSystem} {p : Path}
    (h : ((new asset target pace dir).finish fs).2.1.outcome = some (.ok p)) :
    p = ShaderReport.reportPath dir asset target ∧ ∃ text, asset.path = .ofString text := by
  rw [(finish_new asset target pace dir fs).1] at h
  cases hw : ((new asset target pace dir).writing (fs.readText asset.path)).writeReport
      ((new asset target pace dir).statusOf (fs.readText asset.path)) fs with
  | error e =>
    rw [tick_write_error (writing_stage _ _) hw] at h
    cases h
  | ok fs' =>
    rw [tick_write_ok (writing_stage _ _) hw] at h
    obtain ⟨hasset, -, hpath⟩ :=
      writing_fixed (new asset target pace dir) (fs.readText asset.path)
    rw [new_reportPath] at hpath
    obtain ⟨text, hreport, -⟩ := writeReport_eq_ok_iff.mp hw
    have htext := Report.exists_text_of_toPretty hreport
    rw [report, Report.ofAnalysis, hasset, new] at htext
    exact ⟨(Except.ok.inj (Option.some.inj h)).symm.trans hpath, htext⟩

end ShaderReport.SourceJob
