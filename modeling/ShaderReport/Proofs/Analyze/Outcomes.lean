import Mathlib.Data.List.Forall2
import ShaderReport.Proofs.Analyze.Distinct
import ShaderReport.Proofs.Analyze.Session
import ShaderReport.Proofs.Report.Name

/-!
# A report for each job

Assets are kept apart by the bytes of their names, and reports are named after the names as they are
shown, where bytes that are no text are replaced.  So the reports of distinct assets may have one path.
Such a report is never written: its asset has a path that is not text, and fails before that.  Among
the reports that are written no two have one path, whatever becomes of the analysis
(`written_reports_nodup`).

Every job is that of an asset of its own (`BuildingAll.jobs`), and no two of those that wrote their reports
share the path (`IsJobOf.written_ne`).
-/

namespace ShaderReport

/-- The path that a job wrote its report to, if it wrote it. -/
def Job.written? : Job → Option Path
  | .source j => j.outcome.bind Except.toOption
  | .countdown _ => none

namespace Analyze

/-- Whether a job is that of the asset at a path.  If it wrote a report, the path is text. -/
def IsJobOf (dir : Path) (target : BuildTarget) (job : Job) (path : Path) : Prop :=
  ∃ j, job = .source j ∧ Asset.ofPath path = .ok j.asset ∧ j.target = target ∧
    j.reportPath = reportPath dir j.asset target ∧
    ∀ p, j.outcome = some (.ok p) → p = j.reportPath ∧ ∃ text, path = .ofString text

variable {dir : Path} {target : BuildTarget}

/-! ### One job -/

theorem isJobOf_new {path : Path} {asset : Asset} (ha : Asset.ofPath path = .ok asset)
    (pace : Pace) : IsJobOf dir target (.source (.new asset target pace dir)) path :=
  ⟨_, rfl, ha, rfl, rfl, fun _ hp => nomatch hp⟩

theorem isJobOf_finish {path : Path} {asset : Asset} (ha : Asset.ofPath path = .ok asset)
    (pace : Pace) (fs : FileSystem) :
    IsJobOf dir target (.source ((SourceJob.new asset target pace dir).finish fs).2.1) path := by
  obtain ⟨-, hasset, htarget, hpath⟩ := SourceJob.finish_new_job asset target pace dir fs
  refine ⟨_, rfl, hasset.symm ▸ ha, htarget, ?_, ?_⟩
  · rw [hpath, hasset]
  intro p hp
  obtain ⟨hp, htext⟩ := SourceJob.finish_new_outcome hp
  exact ⟨hp.trans hpath.symm, ofPath_eq_ok ha ▸ htext⟩

/-- **Jobs of assets with other names wrote other reports**, if both of them wrote one. -/
theorem IsJobOf.written_ne {job job' : Job} {path path' p p' : Path}
    (h : IsJobOf dir target job path) (h' : IsJobOf dir target job' path')
    (hne : nameOf path ≠ nameOf path') (hp : job.written? = some p)
    (hp' : job'.written? = some p') : p ≠ p' := by
  obtain ⟨j, rfl, ha, -, hreport, hwritten⟩ := h
  obtain ⟨j', rfl, ha', -, hreport', hwritten'⟩ := h'
  have houtcome : ∀ {j : SourceJob} {p}, (Job.source j).written? = some p →
      j.outcome = some (.ok p) := by
    intro j p hp
    obtain ⟨outcome, ho, hok⟩ := Option.bind_eq_some_iff.mp hp
    cases outcome with
    | error e => cases hok
    | ok q =>
      cases hok
      exact ho
  obtain ⟨rfl, htext⟩ := hwritten p (houtcome hp)
  obtain ⟨rfl, htext'⟩ := hwritten' p' (houtcome hp')
  obtain ⟨name, hf, hn, hs⟩ := exists_name ha htext
  obtain ⟨name', hf', hn', hs'⟩ := exists_name ha' htext'
  intro heq
  rw [hreport, hreport'] at heq
  have hname : name = name' := reportPath_injective (ofPath_eq_ok ha ▸ hf) (ofPath_eq_ok ha' ▸ hf')
    hn hs hn' hs' heq
  exact hne (by rw [nameOf, nameOf, hf, hf', hname])

/-! ### All jobs -/

theorem Building.jobs {console : Console} {s s' : Session} {path : Path}
    {answer : Except Failure Unit} (h : Building console dir target s path s' answer) :
    s'.manager.world.jobs = s.manager.world.jobs ∨ ∃ job, IsJobOf dir target job path ∧
      s'.manager.world.jobs = s.manager.world.jobs ++ [job] := by
  have hran : ∀ {asset pace j}, Ran dir target s path asset pace j s' →
      ∃ job, IsJobOf dir target job path ∧
        s'.manager.world.jobs = s.manager.world.jobs ++ [job] := by
    intro asset pace j hs
    exact ⟨_, hs.job ▸ isJobOf_finish hs.of_path pace _, hs.jobs⟩
  cases h with
  | invalid => exact Or.inl rfl
  | unsupported => exact Or.inl rfl
  | unprepared hp hs => exact Or.inr ⟨_, isJobOf_new hs.of_path _, hs.jobs⟩
  | unannounced hp hs => exact Or.inr ⟨_, isJobOf_new hs.of_path _, hs.jobs⟩
  | unreported hs => exact Or.inr (hran hs)
  | built hs => exact Or.inr (hran hs.toRan)

/-- The jobs are those of the first assets, in order, whether or not the next one failed. -/
theorem BuildingAll.jobs {console : Console} {s s' : Session} {done paths : List Path}
    {answer : Except Failure Unit} (h : BuildingAll console dir target s paths s' answer)
    (hjobs : List.Forall₂ (IsJobOf dir target) s.manager.world.jobs done) :
    ∃ started, started <+: paths ∧
      List.Forall₂ (IsJobOf dir target) s'.manager.world.jobs (done ++ started) := by
  induction h generalizing done with
  | nil s => exact ⟨[], List.prefix_refl _, by rwa [List.append_nil]⟩
  | @stop s s' path paths e here =>
    rcases here.jobs with hsame | ⟨job, hjob, hone⟩
    · exact ⟨[], List.nil_prefix, by rwa [hsame, List.append_nil]⟩
    · refine ⟨[path], List.prefix_append [path] paths, ?_⟩
      rw [hone]
      exact List.rel_append hjobs (.cons hjob .nil)
  | @cons s s₁ s' path paths asset pace j answer here rest ih =>
    have hj : IsJobOf dir target (.source j) path := here.job ▸ isJobOf_finish here.of_path pace _
    have hjobs₁ : List.Forall₂ (IsJobOf dir target) s₁.manager.world.jobs (done ++ [path]) := by
      rw [here.jobs]
      exact List.rel_append hjobs (.cons hj .nil)
    obtain ⟨started, hstarted, hall⟩ := ih hjobs₁
    refine ⟨path :: started, List.cons_prefix_cons.mpr ⟨rfl, hstarted⟩, ?_⟩
    rwa [List.append_assoc, List.singleton_append] at hall

theorem analyzeAssets_jobs (console : Console) (config : Config) (dir : Path) (fs : FileSystem)
    (arguments : List Path) :
    ∃ started, (started.map nameOf).Nodup ∧
      List.Forall₂ (IsJobOf dir config.options.target)
        (analyzeAssets console config dir fs arguments).1.manager.world.jobs started := by
  rw [analyzeAssets]
  rcases hd : distinct fs arguments with ⟨d, found⟩
  obtain ⟨hbetween, -, hnone⟩ := opening_between config dir fs d
  have hjobs : List.Forall₂ (IsJobOf dir config.options.target)
      (opening config dir fs d).manager.world.jobs [] := hnone ▸ .nil
  cases found with
  | error e => exact ⟨[], List.nodup_nil, hjobs⟩
  | ok _ =>
    obtain ⟨-, -, -, hnamed⟩ := distinct_eq_ok hd
    rcases hb : buildAll console dir config.options.target (opening config dir fs d) d.paths with
      ⟨s, answer⟩
    obtain ⟨started, hstarted, hall⟩ := (buildingAll_of_eq hbetween hb).jobs hjobs
    refine ⟨started, hnamed.sublist (hstarted.sublist.map nameOf), ?_⟩
    simp only [hb]
    cases answer with
    | error e => exact hall
    | ok _ =>
      simp only
      split <;> exact hall

/-- **No two jobs write one report**, whatever becomes of the analysis, whatever the console refuses and
whatever bytes the names of the assets have.  Every job that wrote its report wrote it to the path that
its asset and the target make, and these paths are distinct. -/
theorem written_reports_nodup (console : Console) (config : Config) (dir : Path) (fs : FileSystem)
    (arguments : List Path) :
    let jobs := (analyzeAssets console config dir fs arguments).1.manager.world.jobs
    (∀ job ∈ jobs, ∃ j, job = .source j ∧
      j.reportPath = reportPath dir j.asset config.options.target ∧
      ∀ p, j.outcome = some (.ok p) → p = j.reportPath) ∧
    (jobs.filterMap Job.written?).Nodup := by
  intro jobs
  obtain ⟨started, hnodup, hjobs⟩ := analyzeAssets_jobs console config dir fs arguments
  obtain ⟨hlength, hget⟩ := List.forall₂_iff_get.mp hjobs
  constructor
  · intro job hjob
    obtain ⟨i, hi, rfl⟩ := List.mem_iff_getElem.mp hjob
    obtain ⟨j, hj, -, -, hreport, hwritten⟩ := hget i hi (hlength ▸ hi)
    exact ⟨j, hj, hreport, fun p hp => (hwritten p hp).1⟩
  · rw [List.Nodup, List.pairwise_filterMap, List.pairwise_iff_getElem]
    intro i k hi hk hik p hp p' hp'
    refine (hget i hi (hlength ▸ hi)).written_ne (hget k hk (hlength ▸ hk)) ?_ hp hp'
    have hnames := List.pairwise_iff_getElem.mp hnodup i k
      (by simpa using hlength ▸ hi) (by simpa using hlength ▸ hk) hik
    simpa using hnames

end Analyze

end ShaderReport
