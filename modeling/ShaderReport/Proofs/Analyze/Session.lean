import ShaderReport.Analyze
import ShaderReport.Proofs.Manager.Idle

/-!
# Sessions

Between two assets the manager of a session has nothing to do, and its platforms analyse sources into
the output directory (`Between`).  Building the report of one asset then comes down to preparing the
output directory and finishing one new job (`Built`), with a line printed before and after it.

That is how it goes if nothing stands in the way.  `Building` lists all the ways it can go: what is no
asset, a target that is not supported, a directory that cannot be prepared, and a console that refuses
either of the two lines.  `building_of_eq` says that there are no others.
-/

namespace ShaderReport.Analyze

/-- A manager between two assets. -/
structure Between (dir : Path) (m : Manager Platform Bench) : Prop where
  quiet : m.Quiet
  platforms : ∀ {target platform}, m.factories.lookup target = some platform →
    ∃ capabilities pace, platform = .offline ⟨target, capabilities, pace, dir⟩
  unwarned : ∀ w, Event.warned w ∉ m.history
  unlogged : ∀ r, Event.logged r ∉ m.history

/-! ### The start -/

theorem Between.register {dir : Path} {m : Manager Platform Bench} (h : Between dir m)
    (target : BuildTarget) (capabilities : List Capability) (pace : Pace) :
    Between dir (m.register target (.offline ⟨target, capabilities, pace, dir⟩)) := by
  refine ⟨⟨h.quiet.queue, h.quiet.count, h.quiet.source, h.quiet.created⟩, ?_, h.unwarned,
    h.unlogged⟩
  intro t p hlookup
  rw [Manager.register, List.lookup_cons] at hlookup
  by_cases ht : t = target
  · subst ht
    rw [beq_self_eq_true] at hlookup
    cases hlookup
    exact ⟨_, _, rfl⟩
  · rw [beq_false_of_ne ht] at hlookup
    exact h.platforms hlookup

theorem between_registered (config : Config) (dir : Path) {bench : Bench} (hb : bench.jobs = []) :
    Between dir (registered config dir bench) ∧ (registered config dir bench).world = bench := by
  have hnew : Between dir (Manager.new bench : Manager Platform Bench) ∧
      (Manager.new bench : Manager Platform Bench).world = bench :=
    ⟨⟨⟨rfl, rfl, rfl, by simp [Manager.new, hb]⟩, nofun, nofun, nofun⟩, rfl⟩
  rw [registered]
  generalize (Manager.new bench : Manager Platform Bench) = m at hnew
  generalize hp : config.paceOf = paceOf
  clear hp
  induction config.platforms generalizing m with
  | nil => exact hnew
  | cons platform platforms ih =>
    exact ih _ ⟨hnew.1.register platform.1 platform.2.capabilities (paceOf platform.1), hnew.2⟩

/-! ### The session before the first asset -/

theorem foldl_say (rs : List LogRecord) (b : Bench) :
    (rs.foldl Bench.say b).files = b.files ∧ (rs.foldl Bench.say b).jobs = b.jobs := by
  induction rs generalizing b with
  | nil => exact ⟨rfl, rfl⟩
  | cons r rs ih => exact ih (b.say r)

theorem foldl_say_log (rs : List LogRecord) (b : Bench) :
    (rs.foldl Bench.say b).log = rs.reverse ++ b.log := by
  induction rs generalizing b with
  | nil => rfl
  | cons r rs ih =>
    rw [List.foldl_cons, ih, List.reverse_cons, List.append_assoc]
    rfl

section Opening

variable (config : Config) (dir : Path) (fs : FileSystem) (d : Distinct)

theorem opening_between : Between dir (opening config dir fs d).manager ∧
    (opening config dir fs d).manager.world.files = fs ∧
    (opening config dir fs d).manager.world.jobs = [] := by
  obtain ⟨hfiles, hjobs⟩ := foldl_say (d.skipped.map skipping) (.ofFiles fs)
  obtain ⟨hbetween, hworld⟩ := between_registered config dir hjobs
  refine ⟨hbetween, ?_, ?_⟩
  · rw [opening, hworld, hfiles]
    rfl
  · rw [opening, hworld, hjobs]
    rfl

theorem opening_log :
    (opening config dir fs d).manager.world.log.reverse = d.skipped.map skipping := by
  obtain ⟨-, hjobs⟩ := foldl_say (d.skipped.map skipping) (.ofFiles fs)
  obtain ⟨-, hworld⟩ := between_registered config dir hjobs
  rw [opening, hworld, foldl_say_log, Bench.ofFiles, List.append_nil, List.reverse_reverse]

end Opening

/-! ### One asset -/

/-- What preparing for a job does to the world. -/
def prepared (dir : Path) (b : Bench) : Bench :=
  { b with
    files := (prepareOutputDir b.files dir).1
    preparation := (prepareOutputDir b.files dir).2 }

theorem workshop_eq (dir : Path) : workshop dir = Bench.workshop (prepared dir) :=
  rfl

theorem ticksLeft_of_runs {m : Manager Platform Bench} {id : JobId} {j : SourceJob}
    (h : m.Runs id j) : Bench.ticksLeft m = j.ticksLeft m.world.files := by
  rw [Bench.ticksLeft, h.queue]
  simp [h.job, Job.ticksLeft]

theorem Between.platform {dir : Path} {m : Manager Platform Bench} (h : Between dir m)
    {target : BuildTarget} {platform : Platform}
    (hf : m.capableFactory (workshop dir) target = some platform) :
    ∃ capabilities pace, platform = .offline ⟨target, capabilities, pace, dir⟩ :=
  h.platforms (Option.filter_eq_some_iff.mp hf).1

theorem Between.run {dir : Path} {m : Manager Platform Bench} (h : Between dir m)
    {target : BuildTarget} {capabilities : List Capability} {pace : Pace}
    (hf : m.capableFactory (workshop dir) target =
      some (.offline ⟨target, capabilities, pace, dir⟩)) (asset : Asset) :
    ∃ m₁ m₂,
      let start := SourceJob.new asset target pace dir
      let r := start.finish (prepareOutputDir m.world.files dir).1
      m.submit (workshop dir) asset target = (some m.created, m₁) ∧
        m₁.world = (prepared dir m.world).addJob
          (.offline ⟨target, capabilities, pace, dir⟩) asset ∧
        m₁.history = .signal .register :: .created m.created asset :: .prepared :: m.history ∧
        m₁.runUntilIdle (workshop dir) (Bench.ticksLeft m₁) = (r.1, m₂) ∧ Between dir m₂ ∧
        m₂.factories = m.factories ∧ m₂.world.files = r.2.2.1 ∧
        m₂.world.jobs = m.world.jobs ++ [.source r.2.1] ∧
        ∃ new, m₂.world.log = new ++ m.world.log ∧ ∀ r ∈ new, SourceJob.Logs r := by
  rw [workshop_eq] at hf ⊢
  obtain ⟨m₁, hsubmit, hruns, hworld, hfactories, hhistory⟩ :=
    h.quiet.submit (prepared dir) rfl hf asset
  obtain ⟨m₂, hrun, hquiet, hticked⟩ := hruns.runUntilIdle (prepared dir) rfl
  have hfiles : m₁.world.files = (prepareOutputDir m.world.files dir).1 := by
    rw [hworld]
    rfl
  have hjobs : m₁.world.jobs = m.world.jobs ++ [.source (.new asset target pace dir)] := by
    rw [hworld]
    rfl
  rw [← ticksLeft_of_runs hruns] at hrun
  rw [hfiles] at hrun hticked
  have hlog : m₁.world.log = m.world.log := by
    rw [hworld]
    rfl
  refine ⟨m₁, m₂, hsubmit, hworld, hhistory, hrun, ?_, hticked.factories.trans hfactories,
    hticked.files, ?_, hlog ▸ hticked.log⟩
  · refine ⟨hquiet, fun hlookup => h.platforms (hfactories ▸ hticked.factories ▸ hlookup), ?_, ?_⟩
    · intro w hw
      have hw' := hticked.warned hw
      rw [hhistory] at hw'
      exact h.unwarned w (by simpa using hw')
    · intro r hr
      have hr' := hticked.logged hr
      rw [hhistory] at hr'
      exact h.unlogged r (by simpa using hr')
  · rw [hticked.jobs, hjobs, h.quiet.created, List.set_append_right _ _ (Nat.le_refl _),
      Nat.sub_self]
    rfl

theorem Between.say {dir : Path} {m : Manager Platform Bench} (h : Between dir m) (r : LogRecord) :
    Between dir { m with world := m.world.say r } :=
  ⟨⟨h.quiet.queue, h.quiet.count, h.quiet.source, h.quiet.created⟩, h.platforms, h.unwarned,
    h.unlogged⟩

theorem submitPath_of_submit {m m' : Manager Platform Bench} {ws : Workshop Platform Bench}
    {path : Path} {asset : Asset} {target : BuildTarget} {job : Option JobId}
    (ha : Asset.ofPath path = .ok asset) (h : m.submit ws asset target = (job, m')) :
    m.submitPath ws path target = (.ok job, m') := by
  rw [Manager.submitPath, ha]
  simp only [h]

theorem submitPath_invalid {m : Manager Platform Bench} {path : Path} {e : InvalidAsset}
    (ha : Asset.ofPath path = .error e) (ws : Workshop Platform Bench) (target : BuildTarget) :
    m.submitPath ws path target = (.error e, m) := by
  rw [Manager.submitPath, ha]

theorem submitPath_unsupported {m : Manager Platform Bench} {ws : Workshop Platform Bench}
    {path : Path} {asset : Asset} {target : BuildTarget} (ha : Asset.ofPath path = .ok asset)
    (hf : m.capableFactory ws target = none) :
    m.submitPath ws path target = (.ok none, m.warn ws (.unsupported target)) := by
  simp only [Manager.submitPath, ha, Manager.submit, hf]

/-! ### The ways it can go -/

/-- A session with one more job, which is not ticked yet. -/
structure Started (dir : Path) (target : BuildTarget) (s : Session) (path : Path) (asset : Asset)
    (pace : Pace) (s' : Session) : Prop where
  of_path : Asset.ofPath path = .ok asset
  platform : ∃ capabilities, s.manager.capableFactory (workshop dir) target =
    some (.offline ⟨target, capabilities, pace, dir⟩)
  files : s'.manager.world.files = (prepareOutputDir s.manager.world.files dir).1
  jobs : s'.manager.world.jobs = s.manager.world.jobs ++ [.source (.new asset target pace dir)]
  log : s'.manager.world.log = s.manager.world.log
  history : s'.manager.history = .signal .register :: .created s.manager.created asset :: .prepared ::
    s.manager.history
  printed : s'.printed = s.printed
  ids : s'.jobs = s.jobs

/-- A session with one more job, which was finished in the files that preparing the output directory
leaves. -/
structure Ran (dir : Path) (target : BuildTarget) (s : Session) (path : Path) (asset : Asset)
    (pace : Pace) (j : SourceJob) (s' : Session) : Prop where
  of_path : Asset.ofPath path = .ok asset
  platform : ∃ capabilities, s.manager.capableFactory (workshop dir) target =
    some (.offline ⟨target, capabilities, pace, dir⟩)
  prepared : (prepareOutputDir s.manager.world.files dir).2 = .ok ()
  job : j = ((SourceJob.new asset target pace dir).finish
    (prepareOutputDir s.manager.world.files dir).1).2.1
  files : s'.manager.world.files = ((SourceJob.new asset target pace dir).finish
    (prepareOutputDir s.manager.world.files dir).1).2.2.1
  between : Between dir s'.manager
  factories : s'.manager.factories = s.manager.factories
  jobs : s'.manager.world.jobs = s.manager.world.jobs ++ [.source j]
  log : ∃ new, s'.manager.world.log = new ++ s.manager.world.log ∧ ∀ r ∈ new, SourceJob.Logs r

/-- What building the report of an asset does to a session: its job is finished, and is recorded along
with its failure. -/
structure Built (dir : Path) (target : BuildTarget) (s : Session) (path : Path) (asset : Asset)
    (pace : Pace) (j : SourceJob) (s' : Session) : Prop extends
    Ran dir target s path asset pace j s' where
  ids : s'.jobs = s.jobs ++ [s.manager.world.jobs.length]
  failed : s'.failed = if j.failure.isSome then s.failed ++ [path] else s.failed

/-- The ways in which building the report of an asset can go. -/
inductive Building (console : Console) (dir : Path) (target : BuildTarget) (s : Session)
    (path : Path) : Session → Except Failure Unit → Prop where
  | invalid {e : InvalidAsset} (ha : Asset.ofPath path = .error e) :
      Building console dir target s path s (.error (.invalidAsset e))
  | unsupported {asset : Asset} (ha : Asset.ofPath path = .ok asset)
      (hf : s.manager.capableFactory (workshop dir) target = none) :
      Building console dir target s path
        { s with manager := s.manager.warn (workshop dir) (.unsupported target) }
        (.error (.notStarted path target))
  | unprepared {asset : Asset} {pace : Pace} {cause : FileError} {s' : Session}
      (hp : (prepareOutputDir s.manager.world.files dir).2 = .error cause)
      (hs : Started dir target s path asset pace s') :
      Building console dir target s path s' (.error (.outputDir dir cause))
  | unannounced {asset : Asset} {pace : Pace} {line : String} {cause : ConsoleError} {s' : Session}
      (hp : (prepareOutputDir s.manager.world.files dir).2 = .ok ())
      (hs : Started dir target s path asset pace s')
      (hc : console.refusal s'.printed line = some cause) :
      Building console dir target s path s' (.error (.console cause))
  | unreported {asset : Asset} {pace : Pace} {j : SourceJob} {line : String} {cause : ConsoleError}
      {s' : Session} (hs : Ran dir target s path asset pace j s') (hids : s'.jobs = s.jobs)
      (hc : console.refusal s'.printed line = some cause) :
      Building console dir target s path s' (.error (.console cause))
  | built {asset : Asset} {pace : Pace} {j : SourceJob} {s' : Session}
      (hs : Built dir target s path asset pace j s') :
      Building console dir target s path s' (.ok ())

theorem Session.print_cases (s : Session) (console : Console) (line : String) :
    (∃ cause, console.refusal s.printed line = some cause ∧
      s.print console line = (s, .error (.console cause))) ∨
    (console.refusal s.printed line = none ∧
      s.print console line = ({ s with printed := s.printed ++ [line] }, .ok ())) := by
  rw [Session.print, Console.print]
  cases console.refusal s.printed line with
  | none => exact Or.inr ⟨rfl, rfl⟩
  | some cause => exact Or.inl ⟨cause, rfl, rfl⟩

theorem runJob_cases {console : Console} {dir : Path} {s s' : Session} {path : Path} {job : JobId}
    {answer : Except Failure Unit} {cycles : Nat} {m : Manager Platform Bench} {state : JobState}
    (hrun : s.manager.runUntilIdle (workshop dir) (Bench.ticksLeft s.manager) = (cycles, m))
    (hstate : m.world.state? job = some state)
    (hb : runJob console dir s path job = (s', answer)) :
    (∃ line cause, console.refusal s.printed line = some cause ∧ s' = { s with manager := m } ∧
      answer = .error (.console cause)) ∨
    ∃ line, s' = Session.conclude ⟨m, s.printed ++ [line], s.jobs, s.failed⟩ path job state.failure ∧
      answer = .ok () := by
  simp only [runJob, hrun, hstate, Option.getD_some] at hb
  rcases Session.print_cases { s with manager := m } console
    s!"{state.message} ({cycles} ticks)" with ⟨cause, hc, hprint⟩ | ⟨-, hprint⟩
  · rw [hprint] at hb
    cases hb
    exact Or.inl ⟨_, cause, hc, rfl, rfl⟩
  · rw [hprint] at hb
    cases hb
    exact Or.inr ⟨_, rfl, rfl⟩

section Conclude

variable {dir : Path} {target : BuildTarget} {s s₁ : Session} {path : Path} {asset : Asset}
  {pace : Pace} {j : SourceJob}

theorem Session.conclude_ids (s : Session) (path : Path) (job : JobId) (failure : Option String) :
    (s.conclude path job failure).jobs = s.jobs ++ [job] := by
  cases failure <;> rfl

theorem Session.conclude_failed (s : Session) (path : Path) (job : JobId)
    (failure : Option String) :
    (s.conclude path job failure).failed =
      if failure.isSome then s.failed ++ [path] else s.failed := by
  cases failure <;> rfl

theorem Ran.conclude (h : Ran dir target s path asset pace j s₁) (job : JobId)
    (failure : Option String) :
    Ran dir target s path asset pace j (s₁.conclude path job failure) := by
  cases failure with
  | none =>
    exact ⟨h.of_path, h.platform, h.prepared, h.job, h.files, h.between, h.factories, h.jobs, h.log⟩
  | some text =>
    obtain ⟨new, hlog, hnew⟩ := h.log
    refine ⟨h.of_path, h.platform, h.prepared, h.job, h.files, h.between.say _, h.factories, h.jobs,
      ⟨.error, text⟩ :: new, congrArg (List.cons _) hlog, ?_⟩
    exact List.forall_mem_cons.mpr ⟨Or.inl rfl, hnew⟩

end Conclude

/-- **Building the report of an asset goes one of these ways.** -/
theorem building_of_eq {console : Console} {dir : Path} {target : BuildTarget} {s s' : Session}
    {path : Path} {answer : Except Failure Unit} (h : Between dir s.manager)
    (hb : build console dir target s path = (s', answer)) :
    Building console dir target s path s' answer := by
  cases ha : Asset.ofPath path with
  | error e =>
    simp only [build, submitPath_invalid ha] at hb
    cases hb
    exact .invalid ha
  | ok asset =>
    cases hf : s.manager.capableFactory (workshop dir) target with
    | none =>
      simp only [build, submitPath_unsupported ha hf] at hb
      cases hb
      exact .unsupported ha hf
    | some platform =>
      obtain ⟨capabilities, pace, rfl⟩ := h.platform hf
      obtain ⟨m₁, m₂, hsubmit, hworld, hhistory, hrun, hbetween, hfactories, hfiles, hjobs, hlog⟩ :=
        h.run hf asset
      have hprepare : m₁.world.preparation = (prepareOutputDir s.manager.world.files dir).2 := by
        rw [hworld]
        rfl
      have hstarted : Started dir target s path asset pace { s with manager := m₁ } :=
        ⟨ha, ⟨capabilities, hf⟩, by rw [hworld]; rfl, by rw [hworld]; rfl, by rw [hworld]; rfl,
          hhistory, rfl, rfl⟩
      simp only [build, submitPath_of_submit ha hsubmit] at hb
      -- What is left is whether the directory was prepared, and whether both lines are taken.
      cases hprep : m₁.world.preparation with
      | error cause =>
        simp only [hprep] at hb
        cases hb
        exact .unprepared (hprepare.symm.trans hprep) hstarted
      | ok _ =>
        have hready := hprepare.symm.trans hprep
        simp only [hprep] at hb
        rcases Session.print_cases { s with manager := m₁ } console
          s!"Analysing '{path.display}' for {target.name}..." with ⟨cause, hc, hprint⟩ | ⟨-, hprint⟩
        · rw [hprint] at hb
          cases hb
          exact .unannounced hready hstarted hc
        · rw [hprint] at hb
          generalize hj : ((SourceJob.new asset target pace dir).finish
            (prepareOutputDir s.manager.world.files dir).1).2.1 = j at hjobs
          have hstate : m₂.world.state? s.manager.created = some j.state := by
            rw [Bench.state?, hjobs, h.quiet.created, List.getElem?_concat_length]
            rfl
          have hran : ∀ printed,
              Ran dir target s path asset pace j ⟨m₂, printed, s.jobs, s.failed⟩ := by
            intro printed
            exact ⟨ha, ⟨capabilities, hf⟩, hready, hj.symm, hfiles, hbetween, hfactories, hjobs, hlog⟩
          rcases runJob_cases hrun hstate hb with ⟨line, cause, hc, rfl, rfl⟩ | ⟨line, rfl, rfl⟩
          · exact .unreported (hran _) rfl hc
          · refine .built ⟨(hran _).conclude _ _, ?_, Session.conclude_failed _ _ _ _⟩
            rw [Session.conclude_ids, h.quiet.created]

theorem build_eq_ok {console : Console} {dir : Path} {target : BuildTarget} {s s' : Session}
    {path : Path} (h : Between dir s.manager) (hb : build console dir target s path = (s', .ok ())) :
    ∃ asset pace j, Built dir target s path asset pace j s' := by
  cases building_of_eq h hb with
  | built hs => exact ⟨_, _, _, hs⟩

theorem build_ok {dir : Path} {target : BuildTarget} {s : Session} {path : Path} {asset : Asset}
    {platform : Platform} (h : Between dir s.manager) (ha : Asset.ofPath path = .ok asset)
    (hf : s.manager.capableFactory (workshop dir) target = some platform)
    (hp : (prepareOutputDir s.manager.world.files dir).2 = .ok ()) :
    ∃ s', build .unfailing dir target s path = (s', .ok ()) := by
  rcases hb : build .unfailing dir target s path with ⟨s', answer⟩
  refine ⟨s', congrArg (Prod.mk s') ?_⟩
  cases building_of_eq h hb with
  | invalid he =>
    rw [ha] at he
    cases he
  | unsupported _ hnone =>
    rw [hf] at hnone
    cases hnone
  | unprepared hcause =>
    rw [hp] at hcause
    cases hcause
  | unannounced _ _ hc => cases hc
  | unreported _ _ hc => cases hc
  | built => rfl

/-! ### One asset after the other -/

/-- The ways in which building the reports of assets can go: one after the other is built, up to the end
or to the first that cannot. -/
inductive BuildingAll (console : Console) (dir : Path) (target : BuildTarget) :
    Session → List Path → Session → Except Failure Unit → Prop where
  | nil (s : Session) : BuildingAll console dir target s [] s (.ok ())
  | stop {s s' : Session} {path : Path} {paths : List Path} {e : Failure}
      (here : Building console dir target s path s' (.error e)) :
      BuildingAll console dir target s (path :: paths) s' (.error e)
  | cons {s s₁ s' : Session} {path : Path} {paths : List Path} {asset : Asset} {pace : Pace}
      {j : SourceJob} {answer : Except Failure Unit} (here : Built dir target s path asset pace j s₁)
      (rest : BuildingAll console dir target s₁ paths s' answer) :
      BuildingAll console dir target s (path :: paths) s' answer

theorem buildingAll_of_eq {console : Console} {dir : Path} {target : BuildTarget} {s s' : Session}
    {paths : List Path} {answer : Except Failure Unit} (h : Between dir s.manager)
    (hb : buildAll console dir target s paths = (s', answer)) :
    BuildingAll console dir target s paths s' answer := by
  induction paths generalizing s with
  | nil =>
    cases hb
    exact .nil _
  | cons path paths ih =>
    rw [buildAll] at hb
    rcases hbuild : build console dir target s path with ⟨s₁, built⟩
    rw [hbuild] at hb
    have hbuilding := building_of_eq h hbuild
    cases built with
    | error e =>
      cases hb
      exact .stop hbuilding
    | ok _ =>
      cases hbuilding with
      | built hs => exact .cons hs (ih hs.between hb)

/-! ### All of them -/

section Assets

variable {console : Console} {config : Config} {dir : Path} {fs : FileSystem} {arguments : List Path}
  {d : Distinct} {s : Session} {e : Failure}

theorem analyzeAssets_of_refused (hd : distinct fs arguments = (d, .error e)) :
    analyzeAssets console config dir fs arguments = (opening config dir fs d, .error e) := by
  simp only [analyzeAssets, hd]

theorem analyzeAssets_of_error (hd : distinct fs arguments = (d, .ok ()))
    (hb : buildAll console dir config.options.target (opening config dir fs d) d.paths =
      (s, .error e)) :
    analyzeAssets console config dir fs arguments = (s, .error e) := by
  simp only [analyzeAssets, hd, hb]

/-- All that can fail after the last asset is reports. -/
theorem analyzeAssets_of_ok (hd : distinct fs arguments = (d, .ok ()))
    (hb : buildAll console dir config.options.target (opening config dir fs d) d.paths =
      (s, .ok ())) :
    analyzeAssets console config dir fs arguments =
      (s, if s.failed = [] then .ok s.jobs else .error (.reports s.failed s.jobs.length)) := by
  simp only [analyzeAssets, hd, hb, List.isEmpty_iff]
  split <;> rfl

end Assets

end ShaderReport.Analyze
