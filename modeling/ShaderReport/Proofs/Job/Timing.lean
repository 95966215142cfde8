import Mathlib.Algebra.Order.Floor.Div
import ShaderReport.Bench
import ShaderReport.Proofs.Job.Finish

/-!
# How long a job takes

A source job takes one tick to read, one to write, and in between one for every slice of its source; an
empty source counts as one slice, and a source that cannot be read as none (`SourceJob.lifetime`).  Each
tick has a file system of its own, and only the first one matters for this.

* `SourceJob.answers_eq`: every tick answers whether the ticks that were left are used up with it.
* `SourceJob.inStep_tick`: a job that scans is at its first line, or at least one slice away from it and
  before the last line.  So the end of a slice stays below 2^64 (`InStep.add_lt`), and slices advance.
* `SourceJob.Reached.covered_tick`: the slices put together are the lines before the next one.
-/

namespace ShaderReport.SourceJob

/-- How many ticks a job takes whose first tick reads its source with a given result. -/
def lifetime (pace : Pace) : Except FileError String → Nat
  | .ok text => 2 + max 1 ((Text.lines text.toList).length ⌈/⌉ pace.lines)
  | .error _ => 2

/-- What ticks answer, each of them in a file system of its own. -/
def answers (j : SourceJob) : List FileSystem → List Bool
  | [] => []
  | fs :: files => ((Job.source j).tick fs).1 :: (j.tick fs).1.answers files

/-- The lines from one up to another, if there are such lines. -/
def slice? (lines : List (List Char)) (next stop : Nat) : Option (List (List Char)) :=
  if next ≤ stop ∧ stop ≤ lines.length then some ((lines.drop next).take (stop - next)) else none

/-- The lines that the next tick scans. -/
def slice (j : SourceJob) : List (List Char) :=
  match j.stage with
  | .scan lines next => (lines.drop next).take (min (next + j.pace.lines) lines.length - next)
  | _ => []

/-- The lines that each of some ticks scans. -/
def slices (j : SourceJob) : List FileSystem → List (List (List Char))
  | [] => []
  | fs :: files => j.slice :: (j.tick fs).1.slices files

/-! ### The answers -/

theorem ticksLeft_new (asset : Asset) (target : BuildTarget) (pace : Pace) (dir : Path)
    (fs : FileSystem) :
    (new asset target pace dir).ticksLeft fs = lifetime pace (fs.readText asset.path) := by
  cases hr : fs.readText asset.path with
  | ok text => simp only [ticksLeft, new, hr, lifetime, Nat.ceilDiv_eq_add_pred_div]
  | error cause => simp only [ticksLeft, new, hr, lifetime]

theorem isComplete_tick (j : SourceJob) (fs : FileSystem) :
    (j.tick fs).1.isComplete = decide (j.ticksLeft fs ≤ 1) := by
  rw [Bool.eq_iff_iff, decide_eq_true_iff, ← @ticksLeft_eq_zero _ fs, ticksLeft_tick,
    Nat.sub_eq_zero_iff_le]

/-- **Every tick answers whether the ticks that were left are used up.** -/
theorem answers_eq (j : SourceJob) (first : FileSystem) (later : List FileSystem) :
    j.answers (first :: later) =
      (List.range' 1 (later.length + 1)).map fun n => decide (j.ticksLeft first ≤ n) := by
  induction later generalizing j first with
  | nil => exact congrArg (· :: []) (j.isComplete_tick first)
  | cons second later ih =>
    have hanswer : ((Job.source j).tick first).1 = decide (j.ticksLeft first ≤ 1) :=
      j.isComplete_tick first
    have hshift : List.range' 2 (later.length + 1) =
        (List.range' 1 (later.length + 1)).map (1 + ·) := by
      rw [List.map_add_range']
    rw [answers, hanswer, ih, ticksLeft_tick, List.length_cons, List.range'_succ (n := later.length + 1),
      List.map_cons, hshift, List.map_map]
    congr 1
    apply List.map_congr_left
    intro n _
    simp only [Function.comp, decide_eq_decide]
    omega

theorem isComplete_after_iff (j : SourceJob) (first : FileSystem) (later : List FileSystem) :
    (j.after (first :: later)).isComplete = true ↔ j.ticksLeft first ≤ later.length + 1 := by
  rw [← @ticksLeft_eq_zero _ first, ticksLeft_after, Nat.sub_eq_zero_iff_le]

theorem tick_of_isComplete {j : SourceJob} (h : j.isComplete = true) (fs : FileSystem) :
    j.tick fs = (j, fs, []) := by
  cases hs : j.stage with
  | load => simp [isComplete, outcome, hs] at h
  | scan lines next => simp [isComplete, outcome, hs] at h
  | write status => simp [isComplete, outcome, hs] at h
  | done o => simp only [tick, hs]

/-! ### One slice after the other -/

/-- A slice that is not the last one is a full one, and the next one starts where it ends. -/
theorem stage_tick_scan {j : SourceJob} {lines : List (List Char)} {next : Nat}
    (hs : j.stage = .scan lines next) {fs : FileSystem} {lines' : List (List Char)} {next' : Nat}
    (hs' : (j.tick fs).1.stage = .scan lines' next') :
    lines' = lines ∧ next' = next + j.pace.lines ∧ next' < lines.length := by
  simp only [tick, hs, scan] at hs'
  split at hs'
  · cases hs'
  · cases hs'
    refine ⟨rfl, ?_, ?_⟩ <;> omega

/-- Whether a job that scans is at its first line, or else at least a slice away from it and before the
last line. -/
def InStep (j : SourceJob) : Prop :=
  ∀ lines next, j.stage = .scan lines next →
    next = 0 ∨ (j.pace.lines ≤ next ∧ next < lines.length)

theorem inStep_new (asset : Asset) (target : BuildTarget) (pace : Pace) (dir : Path) :
    (new asset target pace dir).InStep := by
  intro lines next hs
  cases hs

theorem inStep_tick (j : SourceJob) (fs : FileSystem) : (j.tick fs).1.InStep := by
  intro lines next hs
  rw [tick_pace]
  cases hstage : j.stage with
  | load =>
    cases hr : fs.readText j.asset.path with
    | ok text =>
      simp only [tick, hstage, load, hr] at hs
      cases hs
      exact Or.inl rfl
    | error cause =>
      simp only [tick, hstage, load, hr] at hs
      cases hs
  | scan lines' next' =>
    obtain ⟨rfl, rfl, hlt⟩ := stage_tick_scan hstage hs
    exact Or.inr ⟨Nat.le_add_left _ _, hlt⟩
  | write status =>
    cases hw : j.writeReport status fs <;>
      simp only [tick, hstage, hw] at hs <;> cases hs
  | done outcome =>
    simp only [tick, hstage] at hs
    cases hs

theorem InStep.after {j : SourceJob} (h : j.InStep) (files : List FileSystem) :
    (j.after files).InStep := by
  induction files generalizing j with
  | nil => exact h
  | cons fs files ih => exact ih (j.inStep_tick fs)

/-- **The end of a slice does not run over 64 bits** for a source of at most 2^63 lines, and there is no
room for a longer one in memory. -/
theorem InStep.add_lt {j : SourceJob} (h : j.InStep) {lines : List (List Char)} {next : Nat}
    (hs : j.stage = .scan lines next) (hlines : lines.length ≤ Limit.signed) :
    next + j.pace.lines < Limit.unsigned := by
  have hpace := j.pace.bounds.2
  have hdouble : Limit.unsigned = Limit.signed + Limit.signed := rfl
  rcases h lines next hs with rfl | ⟨hfull, hlt⟩
  · rwa [Nat.zero_add]
  · omega

/-! ### No line is missed or scanned twice -/

theorem slice_of_scan {j : SourceJob} {lines : List (List Char)} {next : Nat}
    (hs : j.stage = .scan lines next) (hnext : next ≤ lines.length) :
    slice? lines next (min (next + j.pace.lines) lines.length) = some j.slice := by
  rw [slice?, slice, hs, if_pos ⟨Nat.le_min.mpr ⟨Nat.le_add_right _ _, hnext⟩, Nat.min_le_right _ _⟩]

theorem analysis_tick (j : SourceJob) (fs : FileSystem) :
    (j.tick fs).1.analysis = j.analysis.scan j.slice := by
  cases hs : j.stage with
  | load =>
    cases hr : fs.readText j.asset.path <;> simp only [tick, slice, hs, load, hr, Analysis.scan_nil]
  | scan lines next => simp only [tick, slice, hs, scan]
  | write status =>
    cases hw : j.writeReport status fs <;> simp only [tick, slice, hs, hw, Analysis.scan_nil]
  | done outcome => simp only [tick, slice, hs, Analysis.scan_nil]

/-- The lines of a source that was read, or could not be read. -/
def linesOf : Except FileError String → List (List Char)
  | .ok text => Text.lines text.toList
  | .error _ => []

/-- The lines that a job is done with, once the read of its first tick gave a result. -/
def covered (read : Except FileError String) (j : SourceJob) : List (List Char) :=
  match j.stage with
  | .load => []
  | .scan lines next => lines.take next
  | .write _ | .done _ => linesOf read

theorem Reached.covered_tick {start j : SourceJob} {read : Except FileError String}
    (h : Reached start read j) (fs : FileSystem) :
    (j.tick fs).1.covered read = j.covered read ++ j.slice := by
  cases h with
  | scan text next hr hn =>
    subst hr
    have hstop : next ≤ min (next + start.pace.lines) (Text.lines text.toList).length :=
      Nat.le_min.mpr ⟨Nat.le_add_right _ _, hn⟩
    have hslice := List.take_append_drop next
      ((Text.lines text.toList).take (min (next + start.pace.lines) (Text.lines text.toList).length))
    rw [List.take_take, Nat.min_eq_left hstop, List.drop_take] at hslice
    simp only [SourceJob.tick, SourceJob.scan, slice, covered, hslice]
    by_cases hend : min (next + start.pace.lines) (Text.lines text.toList).length =
        (Text.lines text.toList).length
    · rw [if_pos hend, hend, List.take_length]
      rfl
    · rw [if_neg hend]
  | write =>
    cases hw : ({ start.settled read with stage := .write (start.statusOf read) } :
        SourceJob).writeReport (start.statusOf read) fs <;>
      simp only [SourceJob.tick, hw, slice, covered, List.append_nil]
  | done outcome ho => simp only [SourceJob.tick, slice, covered, List.append_nil]

theorem covered_tick_new (asset : Asset) (target : BuildTarget) (pace : Pace) (dir : Path)
    (fs : FileSystem) :
    ((new asset target pace dir).tick fs).1.covered (fs.readText asset.path) = [] := by
  cases hr : fs.readText asset.path with
  | ok text => simp only [tick, new, load, covered, hr, List.take_zero]
  | error cause => simp only [tick, new, load, covered, hr, linesOf]

theorem Reached.flatten_slices {start j : SourceJob} {read : Except FileError String}
    (h : Reached start read j) (files : List FileSystem) :
    j.covered read ++ (j.slices files).flatten = (j.after files).covered read := by
  induction files generalizing j with
  | nil => exact List.append_nil _
  | cons fs files ih =>
    rw [slices, List.flatten_cons, ← List.append_assoc, ← h.covered_tick fs]
    exact ih (h.tick fs)

/-! ### The main statement -/

/-- **A job completes on its tick, not before and not after.**  The ticks before the last one of its
lifetime answer that it is not complete, and all the others answer that it is.  While it scans:

* the slices so far are the lines before the next one, each of them once;
* the end of the next slice, added up in 64 bits, is within the lines and did not run over;
* the next line of one slice comes before that of the slice after it.

At the end all lines of the source were scanned.  From then on ticks leave the job and the files as they
are, whatever became of the files. -/
theorem complete_on_time (asset : Asset) (target : BuildTarget) (pace : Pace) (dir : Path)
    (first : FileSystem) (later : List FileSystem) :
    let start := new asset target pace dir
    let read := first.readText asset.path
    let j := start.after (first :: later)
    let scanned := (start.slices (first :: later)).flatten
    start.answers (first :: later) =
      (List.range' 1 (later.length + 1)).map (fun n => decide (lifetime pace read ≤ n)) ∧
    start.isComplete = false ∧
    (j.isComplete = true ↔ lifetime pace read ≤ later.length + 1) ∧
    (∀ fs, (j.tick fs).1.analysis = j.analysis.scan j.slice) ∧
    (∀ lines next, j.stage = .scan lines next →
      scanned = lines.take next ∧ next ≤ lines.length ∧
      (lines.length < Limit.unsigned →
        slice? lines next (j.sliceEnd lines next) = some j.slice) ∧
      (lines.length ≤ Limit.signed → next + pace.lines < Limit.unsigned) ∧
      ∀ fs lines' next', (j.tick fs).1.stage = .scan lines' next' → lines' = lines ∧ next < next') ∧
    (j.isComplete = true →
      (∀ text, read = .ok text → scanned = Text.lines text.toList) ∧
      ∀ fs, j.tick fs = (j, fs, [])) := by
  intro start read j scanned
  have hreached : Reached start read (start.tick first).1 :=
    reached_tick_new asset target pace dir first
  have hj : Reached start read j := hreached.after later
  have hpace : j.pace = pace := after_pace start (first :: later)
  have hstep : j.InStep := (inStep_new asset target pace dir).after (first :: later)
  have hleft : start.ticksLeft first = lifetime pace read := ticksLeft_new asset target pace dir first
  -- The first tick scans nothing, so the lines that are done are those of the ticks after it.
  have hscanned : scanned = j.covered read := by
    have hnone : (start.tick first).1.covered read = [] := covered_tick_new asset target pace dir first
    have hall := hreached.flatten_slices later
    rwa [hnone, List.nil_append] at hall
  refine ⟨?_, rfl, ?_, j.analysis_tick, ?_, ?_⟩
  · rw [answers_eq, hleft]
  · rw [← hleft]
    exact isComplete_after_iff start first later
  · intro lines next hs
    obtain ⟨-, hnext, -⟩ := hj.scan_eq hs
    refine ⟨?_, hnext, ?_, ?_, ?_⟩
    · simp only [hscanned, covered, hs]
    · intro hlines
      rw [j.sliceEnd_eq hlines]
      exact slice_of_scan hs hnext
    · intro hlines
      have hlt := hstep.add_lt hs hlines
      rwa [hpace] at hlt
    · intro fs lines' next' hs'
      obtain ⟨hsame, hnext', -⟩ := stage_tick_scan hs hs'
      have hpos := j.pace.lines_pos
      exact ⟨hsame, by omega⟩
  · intro hcomplete
    refine ⟨?_, tick_of_isComplete hcomplete⟩
    intro text htext
    cases hs : j.stage with
    | load => simp [isComplete, outcome, hs] at hcomplete
    | scan lines next => simp [isComplete, outcome, hs] at hcomplete
    | write status => simp only [hscanned, covered, hs, htext, linesOf]
    | done o => simp only [hscanned, covered, hs, htext, linesOf]

end ShaderReport.SourceJob
