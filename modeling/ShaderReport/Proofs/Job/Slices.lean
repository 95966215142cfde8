import ShaderReport.Job.Source
import ShaderReport.Proofs.Analysis.Combine

/-!
# Scanning in slices

A source job reads its source on its first tick and scans it slice by slice on the next ones.  The
file system may change in any way between the ticks (`SourceJob.after` gives each tick a file system
of its own), but only the first tick and the writing one look at it.  So all that a job is after its
first tick depends on the text read there:

* `SourceJob.Reached start read j` lists what a job can be once the read of its first tick gave
  `read`.  The first tick leads into it (`reached_tick_new`) and every later tick stays in it
  (`Reached.tick`).
* `Report.ofRead` is the report of a source that is scanned in one piece.  It knows nothing of the
  pace or of file systems, and `report_in_slices` says that it is the one that is written.
* `SourceJob.ticksLeft_tick`: every tick takes one off the ticks that are left, so a job gets there.

The end of a slice is kept within the lines.  Adding in 64 bits, which stops at the greatest number,
finds the same end for every source that fits into memory (`SourceJob.tick_scan`).
-/

namespace ShaderReport

/-! ### Scanning a list of lines in parts -/

theorem Analysis.scan_take_slice (a : Analysis) (ls : List (List Char)) {next stop : Nat}
    (h : next ≤ stop) :
    (a.scan (ls.take next)).scan ((ls.drop next).take (stop - next)) = a.scan (ls.take stop) := by
  rw [← Analysis.scan_append, ← List.take_add, Nat.add_sub_cancel' h]

/-- The report of a source that was read and scanned in one piece, or could not be read. -/
def Report.ofRead (asset : Asset) (target : BuildTarget) : Except FileError String → Report
  | .ok text => .ofAnalysis asset target .succeeded (.ofText text)
  | .error cause =>
    .ofAnalysis asset target (.failed (JobError.readSource asset.path cause).message) .empty

/-- The file system with a report written to a path.  It stays as it is if that fails. -/
def Report.deliver (r : Report) (p : Path) (fs : FileSystem) : FileSystem :=
  match r.toPretty with
  | .ok text => (fs.write p (Utf8.encode text)).toOption.getD fs
  | .error _ => fs

namespace SourceJob

/-- The job after ticks, each of them in a file system of its own. -/
def after (j : SourceJob) (files : List FileSystem) : SourceJob :=
  files.foldl (fun j fs => (j.tick fs).1) j

/-! ### What a job can be after its first tick -/

/-- The job with all that it knows once its source is scanned, or could not be read. -/
def settled (j : SourceJob) : Except FileError String → SourceJob
  | .ok text => { j with analysis := .ofText text }
  | .error cause => { j with readError := some (.readSource j.asset.path cause) }

/-- The status that goes into the report. -/
def statusOf (j : SourceJob) : Except FileError String → Status
  | .ok _ => .succeeded
  | .error cause => .failed (JobError.readSource j.asset.path cause).message

/-- What a new job can become once its first tick read its source with a given result. -/
inductive Reached (start : SourceJob) (read : Except FileError String) : SourceJob → Prop
  | scan (text : String) (next : Nat) (hr : read = .ok text)
      (hn : next ≤ (Text.lines text.toList).length) :
      Reached start read { start with
        analysis := Analysis.empty.scan ((Text.lines text.toList).take next)
        stage := .scan (Text.lines text.toList) next }
  | write : Reached start read { start.settled read with stage := .write (start.statusOf read) }
  | done (outcome : Except JobError Path) (ho : ∀ p, outcome = .ok p → p = start.reportPath) :
      Reached start read { start.settled read with stage := .done outcome }

theorem reached_tick_new (asset : Asset) (target : BuildTarget) (pace : Pace) (dir : Path)
    (fs : FileSystem) :
    Reached (.new asset target pace dir) (fs.readText asset.path)
      ((new asset target pace dir).tick fs).1 := by
  cases hr : fs.readText asset.path with
  | ok text =>
    have : Reached (new asset target pace dir) (.ok text) _ := .scan text 0 rfl (Nat.zero_le _)
    simpa [tick, load, new, hr] using this
  | error cause =>
    have : Reached (new asset target pace dir) (.error cause) _ := .write
    simpa [tick, load, new, hr, settled, statusOf] using this

@[simp] theorem settled_reportPath (j : SourceJob) (read : Except FileError String) :
    (j.settled read).reportPath = j.reportPath := by
  cases read <;> rfl

theorem Reached.tick {start j : SourceJob} {read : Except FileError String}
    (h : Reached start read j) (fs : FileSystem) : Reached start read (j.tick fs).1 := by
  cases h with
  | scan text next hr hn =>
    have hscan := Analysis.scan_take_slice .empty (Text.lines text.toList)
      (Nat.le_min.mpr ⟨Nat.le_add_right next start.pace.lines, hn⟩)
    simp only [SourceJob.tick, SourceJob.scan, hscan]
    split
    · next hend =>
      rw [hend, List.take_length]
      subst hr
      exact .write
    · exact .scan text _ hr (Nat.min_le_right _ _)
  | write =>
    simp only [SourceJob.tick]
    split
    · exact .done _ fun p hp => by rw [← Except.ok.inj hp, settled_reportPath]
    · exact .done _ fun p hp => nomatch hp
  | done outcome ho => exact .done outcome ho

theorem Reached.after {start j : SourceJob} {read : Except FileError String}
    (h : Reached start read j) (files : List FileSystem) : Reached start read (j.after files) := by
  induction files generalizing j with
  | nil => exact h
  | cons fs files ih => exact ih (h.tick fs)

theorem Reached.report_eq {asset : Asset} {target : BuildTarget} {pace : Pace} {dir : Path}
    {read : Except FileError String} {j : SourceJob}
    (h : Reached (.new asset target pace dir) read j) {status : Status}
    (hs : j.stage = .write status) : j.report status = Report.ofRead asset target read := by
  cases h with
  | scan text next hr hn => cases hs
  | write =>
    obtain rfl : statusOf (.new asset target pace dir) read = status := Stage.write.inj hs
    cases read <;> rfl
  | done outcome ho => cases hs

theorem Reached.reportPath_eq {start j : SourceJob} {read : Except FileError String}
    (h : Reached start read j) : j.reportPath = start.reportPath := by
  cases h <;> simp

theorem Reached.scan_eq {asset : Asset} {target : BuildTarget} {pace : Pace} {dir : Path}
    {read : Except FileError String} {j : SourceJob}
    (h : Reached (.new asset target pace dir) read j) {lines : List (List Char)} {next : Nat}
    (hs : j.stage = .scan lines next) :
    (∃ text, read = .ok text ∧ lines = Text.lines text.toList) ∧ next ≤ lines.length ∧
      j.analysis = Analysis.empty.scan (lines.take next) := by
  cases h with
  | scan text next' hr hn =>
    obtain ⟨rfl, rfl⟩ := Stage.scan.inj hs
    exact ⟨⟨text, hr, rfl⟩, hn, rfl⟩
  | write => cases hs
  | done outcome ho => cases hs

theorem files_of_write {j : SourceJob} {status : Status} (hs : j.stage = .write status)
    (fs : FileSystem) : (j.tick fs).2.1 = (j.report status).deliver j.reportPath fs := by
  simp only [SourceJob.tick, hs, writeReport, Report.deliver]
  cases (j.report status).toPretty with
  | error e => rfl
  | ok text => cases hw : fs.write j.reportPath (Utf8.encode text) <;> simp only [hw] <;> rfl

/-! ### How many ticks are left -/

/-- Rounded up, a positive number has one more whole part than what is left of it after one part. -/
theorem ceil_sub {n p : Nat} (hp : 0 < p) (h : p < n) :
    (n + p - 1) / p = (n - p + p - 1) / p + 1 := by
  rw [show n + p - 1 = (n - p + p - 1) + p by omega, Nat.add_div_right _ hp]

theorem ceil_le_one {n p : Nat} (hp : 0 < p) (h : n ≤ p) : (n + p - 1) / p ≤ 1 := by
  have : (n + p - 1) / p < 2 := Nat.div_lt_of_lt_mul (by omega)
  omega

theorem one_le_ceil {n p : Nat} (hp : 0 < p) (h : 0 < n) : 1 ≤ (n + p - 1) / p :=
  (Nat.one_le_div_iff hp).mpr (by omega)

/-- **Every tick takes one off the ticks that are left.**  Once the source is read, they do not
depend on any file system. -/
theorem ticksLeft_tick (j : SourceJob) (fs fs' : FileSystem) :
    (j.tick fs).1.ticksLeft fs' = j.ticksLeft fs - 1 := by
  have hp := j.pace.lines_pos
  cases hs : j.stage with
  | load =>
    cases hr : fs.readText j.asset.path with
    | ok text =>
      simp only [tick, load, ticksLeft, hs, hr, Nat.sub_zero]
      omega
    | error cause => simp only [tick, load, ticksLeft, hs, hr]
  | scan lines next =>
    simp only [tick, SourceJob.scan, hs, ticksLeft]
    by_cases hend : next + j.pace.lines < lines.length
    · have hstop : min (next + j.pace.lines) lines.length = next + j.pace.lines :=
        Nat.min_eq_left (by omega)
      have hceil := ceil_sub hp (show j.pace.lines < lines.length - next by omega)
      have hone := one_le_ceil hp (show 0 < lines.length - next - j.pace.lines by omega)
      rw [hstop, if_neg (by omega)]
      simp only
      rw [show lines.length - (next + j.pace.lines) = lines.length - next - j.pace.lines by omega,
        hceil]
      omega
    · have hstop : min (next + j.pace.lines) lines.length = lines.length :=
        Nat.min_eq_right (by omega)
      have hceil := ceil_le_one hp (show lines.length - next ≤ j.pace.lines by omega)
      rw [hstop, if_pos rfl]
      simp only
      omega
  | write status =>
    cases hw : j.writeReport status fs <;> simp only [tick, hs, ticksLeft, hw]
  | done outcome => simp only [tick, hs, ticksLeft]

theorem ticksLeft_after (j : SourceJob) (first : FileSystem) (later : List FileSystem)
    (fs : FileSystem) :
    (j.after (first :: later)).ticksLeft fs = j.ticksLeft first - (later.length + 1) := by
  induction later generalizing j first with
  | nil => exact ticksLeft_tick j first fs
  | cons second later ih =>
    have := ih (j.tick first).1 second
    rw [ticksLeft_tick] at this
    rw [List.length_cons, Nat.sub_add_eq, Nat.sub_right_comm, ← this]
    rfl

theorem ticksLeft_eq_zero {j : SourceJob} {fs : FileSystem} :
    j.ticksLeft fs = 0 ↔ j.isComplete = true := by
  cases hs : j.stage with
  | load =>
    cases hr : fs.readText j.asset.path <;> simp [ticksLeft, isComplete, outcome, hs, hr]
  | scan lines next => simp [ticksLeft, isComplete, outcome, hs]
  | write status => simp [ticksLeft, isComplete, outcome, hs]
  | done o => simp [ticksLeft, isComplete, outcome, hs]

theorem writes_of_ticksLeft {j : SourceJob} {fs : FileSystem} (h : j.ticksLeft fs = 1) :
    ∃ status, j.stage = .write status := by
  cases hs : j.stage with
  | load =>
    cases hr : fs.readText j.asset.path <;> simp only [ticksLeft, hs, hr] at h <;> omega
  | scan lines next =>
    simp only [ticksLeft, hs] at h
    omega
  | write status => exact ⟨status, rfl⟩
  | done o => simp [ticksLeft, hs] at h

/-! ### The end of a slice in 64 bits -/

/-- Where the slice that starts at a line ends, by adding in 64 bits. -/
def sliceEnd (j : SourceJob) (lines : List (List Char)) (next : Nat) : Nat :=
  min (Count.clamp (next + j.pace.lines)).val lines.length

/-- The job once the lines from one up to another are scanned too. -/
def scanTo (j : SourceJob) (lines : List (List Char)) (next stop : Nat) : SourceJob :=
  { j with
    analysis := j.analysis.scan ((lines.drop next).take (stop - next))
    stage := if stop = lines.length then .write .succeeded else .scan lines stop }

theorem sliceEnd_eq (j : SourceJob) {lines : List (List Char)} (h : lines.length < Limit.unsigned)
    (next : Nat) : j.sliceEnd lines next = min (next + j.pace.lines) lines.length := by
  have hl : lines.length ≤ 18446744073709551615 := Nat.le_of_lt_succ h
  simp only [sliceEnd, Count.val_clamp]
  omega

theorem tick_scan {j : SourceJob} {lines : List (List Char)} {next : Nat}
    (hs : j.stage = .scan lines next) (h : lines.length < Limit.unsigned) (fs : FileSystem) :
    (j.tick fs).1 = j.scanTo lines next (j.sliceEnd lines next) := by
  simp only [tick, hs, j.sliceEnd_eq h]
  rfl

/-! ### The report does not depend on the slices -/

/-- **A job that scans in slices writes the report of its source in one piece.**  While it scans, it
has scanned just the lines before the next one, and its next slice ends where adding in 64 bits ends
it.  The tick that writes puts `Report.ofRead` at the path of the report, whatever the pace is and
whatever became of the files after the first tick: no other pace and no other files make another
report.  And there is such a tick. -/
theorem report_in_slices (asset : Asset) (target : BuildTarget) (dir : Path) (pace : Pace)
    (first : FileSystem) (later : List FileSystem) :
    let start := new asset target pace dir
    let read := first.readText asset.path
    let j := start.after (first :: later)
    (∀ lines next, j.stage = .scan lines next →
      (∃ text, read = .ok text ∧ lines = Text.lines text.toList) ∧ next ≤ lines.length ∧
        j.analysis = Analysis.empty.scan (lines.take next) ∧
        (lines.length < Limit.unsigned →
          ∀ fs, (j.tick fs).1 = j.scanTo lines next (j.sliceEnd lines next))) ∧
    (∀ status, j.stage = .write status →
      j.report status = Report.ofRead asset target read ∧
        ∀ fs, (j.tick fs).2.1 = (Report.ofRead asset target read).deliver
          (ShaderReport.reportPath dir asset target) fs) ∧
    (∀ status pace' later' status', j.stage = .write status →
      ((new asset target pace' dir).after (first :: later')).stage = .write status' →
        j.report status = ((new asset target pace' dir).after (first :: later')).report status') ∧
    (later.length + 2 = start.ticksLeft first → ∃ status, j.stage = .write status) := by
  intro start read j
  have reached : ∀ pace later, Reached (new asset target pace dir) read
      ((new asset target pace dir).after (first :: later)) := fun pace later =>
    (reached_tick_new asset target pace dir first).after later
  have hj : Reached start read j := reached pace later
  refine ⟨?_, ?_, ?_, ?_⟩
  · intro lines next hs
    obtain ⟨htext, hnext, hscan⟩ := hj.scan_eq hs
    exact ⟨htext, hnext, hscan, fun hlines fs => tick_scan hs hlines fs⟩
  · intro status hs
    have hrep := hj.report_eq hs
    refine ⟨hrep, ?_⟩
    intro fs
    rw [files_of_write hs, hrep, hj.reportPath_eq]
    rfl
  · intro status pace' later' status' hs hs'
    rw [hj.report_eq hs, (reached pace' later').report_eq hs']
  · intro hlen
    have hleft : j.ticksLeft first = 1 := by
      rw [show j.ticksLeft first = start.ticksLeft first - (later.length + 1) from
        ticksLeft_after start first later first]
      omega
    exact writes_of_ticksLeft hleft

end SourceJob

end ShaderReport
