import ShaderReport.Proofs.Analyze.Reports

/-!
# Failures of single reports

A report that fails does not keep the next ones from being built.  `Course` is what becomes of assets in
order: each has its turn in the files that the ones before it left, whether they failed or not.  If the
target is supported, the output directory can be prepared and all the arguments are assets, then the
analysis takes such a course to its end and tells just which assets failed: `analyzeAssets_failures`.
Only a console that refuses a line stops it before that, and then it is `CutOff` at some asset.

That the output directory can be prepared is asked for at the start only.  Reports are files, so once the
directory is there they leave it there (`Turn.keepsWays`), and preparing it again does nothing.  So one
more asset keeps what there is to say of a session on its course (`OnCourse.step`), and a loop ends in one
of three ways (`OnCourse.run`).
-/

namespace ShaderReport

/-- Whether the platform of a target, which is the last one declared for it, builds reports. -/
def Config.Supports (config : Config) (target : BuildTarget) : Prop :=
  ∃ platform, config.platforms.reverse.lookup target = some platform ∧
    .buildReport ∈ platform.capabilities

/-- Whether a console takes every line. -/
def Console.TakesAll (console : Console) : Prop :=
  ∀ printed line, console.refusal printed line = none

namespace Analyze

open FileSystem

/-! ### The turn of an asset -/

/-- What becomes of an asset when the output directory is there.  Its job is run to completion, and has a
failure just if the source cannot be read or the report cannot be laid out or written.  Otherwise the
report, which says that it succeeded, is in its place. -/
structure Turn (dir : Path) (target : BuildTarget) (fs : FileSystem) (path : Path) (j : SourceJob)
    (fs' : FileSystem) : Prop where
  of_path : Asset.ofPath path = .ok j.asset
  of_target : j.target = target
  complete : j.isComplete = true
  failure : j.failure.isSome = true ↔ SourceJob.Fails j.asset target dir fs
  files : fs' =
    (Report.ofRead j.asset target (fs.readText path)).deliver (reportPath dir j.asset target) fs
  written : j.failure = none → ∃ text report, fs.readText path = .ok text ∧
    (Report.ofAnalysis j.asset target .succeeded (.ofText text)).toPretty = .ok report ∧
    fs'.read (reportPath dir j.asset target) = .ok (Utf8.encode report)

variable {dir : Path} {target : BuildTarget}

theorem turn_finish {path : Path} {asset : Asset} (ha : Asset.ofPath path = .ok asset) (pace : Pace)
    (fs : FileSystem) :
    Turn dir target fs path ((SourceJob.new asset target pace dir).finish fs).2.1
      ((SourceJob.new asset target pace dir).finish fs).2.2.1 := by
  obtain ⟨hcomplete, hasset, htarget, -⟩ := SourceJob.finish_new_job asset target pace dir fs
  have hpath := ofPath_eq_ok ha
  constructor
  · rw [hasset, ha]
  · exact htarget
  · exact hcomplete
  · rw [hasset]
    exact SourceJob.finish_new_failure_iff asset target pace dir fs
  · rw [hasset, ← hpath]
    exact SourceJob.finish_new_files asset target pace dir fs
  · intro hnone
    obtain ⟨text, report, htext, hreport, hwrite⟩ := SourceJob.finish_new_ok hnone
    rw [hasset, ← hpath]
    exact ⟨text, report, htext, hreport, (write_eq_ok hwrite).2⟩

theorem deliver_keepsWays (r : Report) (p : Path) (fs : FileSystem) :
    KeepsWays fs (r.deliver p fs) := by
  rw [Report.deliver]
  cases r.toPretty with
  | error cause => exact .refl fs
  | ok text =>
    simp only
    cases hw : fs.write p (Utf8.encode text) with
    | error cause => exact .refl fs
    | ok fs' => exact (write_eq_ok hw).1

theorem Turn.keepsWays {fs fs' : FileSystem} {path : Path} {j : SourceJob}
    (h : Turn dir target fs path j fs') : KeepsWays fs fs' :=
  h.files ▸ deliver_keepsWays _ _ _

/-! ### One turn after the other -/

/-- What becomes of assets in order: their jobs, and the files before and after them. -/
inductive Course (dir : Path) (target : BuildTarget) :
    FileSystem → List Path → List SourceJob → FileSystem → Prop where
  | nil (fs : FileSystem) : Course dir target fs [] [] fs
  | cons {fs ready fs' fs'' : FileSystem} {path : Path} {paths : List Path} {j : SourceJob}
      {js : List SourceJob} (hready : prepareOutputDir fs dir = (ready, .ok ()))
      (turn : Turn dir target ready path j fs') (rest : Course dir target fs' paths js fs'') :
      Course dir target fs (path :: paths) (j :: js) fs''

/-- The assets whose jobs have a failure. -/
def failedAssets (paths : List Path) (js : List SourceJob) : List Path :=
  ((paths.zip js).filter (·.2.failure.isSome)).map (·.1)

theorem failedAssets_cons (path : Path) (paths : List Path) (j : SourceJob) (js : List SourceJob) :
    failedAssets (path :: paths) (j :: js) =
      if j.failure.isSome then path :: failedAssets paths js else failedAssets paths js := by
  rw [failedAssets, List.zip_cons_cons, List.filter_cons]
  split <;> rfl

theorem Course.length {fs fs' : FileSystem} {paths : List Path} {js : List SourceJob}
    (h : Course dir target fs paths js fs') : js.length = paths.length := by
  induction h with
  | nil fs => rfl
  | cons hready turn rest ih => rw [List.length_cons, List.length_cons, ih]

theorem Course.failedAssets_eq_nil {fs fs' : FileSystem} {paths : List Path} {js : List SourceJob}
    (h : Course dir target fs paths js fs') :
    failedAssets paths js = [] ↔ ∀ j ∈ js, j.failure = none := by
  induction h with
  | nil fs => simp [failedAssets]
  | @cons _ _ _ _ path paths j js hready turn rest ih =>
    rw [failedAssets_cons, List.forall_mem_cons, ← ih]
    cases hfailure : j.failure <;> simp

theorem Course.concat {fs files ready fs' : FileSystem} {paths : List Path} {path : Path}
    {js : List SourceJob} {j : SourceJob} (h : Course dir target fs paths js files)
    (hready : prepareOutputDir files dir = (ready, .ok ()))
    (turn : Turn dir target ready path j fs') :
    Course dir target fs (paths ++ [path]) (js ++ [j]) fs' := by
  induction h with
  | nil fs => exact .cons hready turn (.nil fs')
  | cons hready' turn' rest ih => exact .cons hready' turn' (ih hready)

theorem failedAssets_concat {paths : List Path} {js : List SourceJob}
    (h : js.length = paths.length) (path : Path) (j : SourceJob) :
    failedAssets (paths ++ [path]) (js ++ [j]) =
      if j.failure.isSome then failedAssets paths js ++ [path] else failedAssets paths js := by
  have hone : failedAssets [path] [j] = if j.failure.isSome then [path] else [] :=
    failedAssets_cons path [] j []
  have happend : failedAssets (paths ++ [path]) (js ++ [j]) =
      failedAssets paths js ++ failedAssets [path] [j] := by
    rw [failedAssets, List.zip_append h.symm, List.filter_append, List.map_append]
    rfl
  rw [happend, hone]
  split
  · rfl
  · exact List.append_nil _

/-- What is left of assets where the console refuses a line.  The ones before some asset had their turns,
its own job was not ticked yet or is complete, and there are no jobs of the ones after it.  No submission
was refused. -/
structure CutOff (console : Console) (dir : Path) (target : BuildTarget) (pace : Pace)
    (fs : FileSystem) (paths : List Path) (s : Session) (cause : ConsoleError) : Prop where
  jobs : ∃ before path after js j files ready, paths = before ++ path :: after ∧
    Course dir target fs before js files ∧ prepareOutputDir files dir = (ready, .ok ()) ∧
    ((∃ asset, Asset.ofPath path = .ok asset ∧ j = .new asset target pace dir ∧
        s.manager.world.files = ready) ∨
      Turn dir target ready path j s.manager.world.files) ∧
    s.manager.world.jobs = (js ++ [j]).map .source ∧ (∀ j' ∈ js ++ [j], j'.pace = pace) ∧
    s.jobs = List.range js.length
  refused : ∃ line, console.refusal s.printed line = some cause
  unwarned : ∀ w, Event.warned w ∉ s.manager.history
  unlogged : ∀ r, Event.logged r ∉ s.manager.history

theorem CutOff.not_takesAll {console : Console} {pace : Pace} {fs : FileSystem} {paths : List Path}
    {s : Session} {cause : ConsoleError} (h : CutOff console dir target pace fs paths s cause) :
    ¬ console.TakesAll := by
  intro htakes
  obtain ⟨line, hrefused⟩ := h.refused
  rw [htakes] at hrefused
  cases hrefused

/-! ### The loop -/

theorem lookup_registered (config : Config) (dir : Path) (bench : Bench) (target : BuildTarget) :
    (registered config dir bench).factories.lookup target =
      (config.platforms.reverse.lookup target).map fun platform =>
        .offline ⟨target, platform.capabilities, config.paceOf target, dir⟩ := by
  rw [registered]
  generalize hp : config.paceOf = paceOf
  clear hp
  induction config.platforms using List.reverseRecOn with
  | nil => rfl
  | append_singleton platforms platform ih =>
    obtain ⟨t, p⟩ := platform
    simp only [List.foldl_append, List.foldl_cons, List.foldl_nil, Manager.register,
      List.reverse_append, List.reverse_singleton, List.singleton_append, List.lookup_cons]
    by_cases ht : target = t
    · subst ht
      simp
    · simp only [beq_false_of_ne ht]
      exact ih

theorem capableFactory_registered {config : Config} (h : config.Supports target) (dir : Path)
    (bench : Bench) :
    ∃ capabilities, (registered config dir bench).capableFactory (workshop dir) target =
      some (.offline ⟨target, capabilities, config.paceOf target, dir⟩) := by
  obtain ⟨platform, hlookup, hcapable⟩ := h
  refine ⟨platform.capabilities, ?_⟩
  rw [Manager.capableFactory, lookup_registered, hlookup, Option.map_some]
  exact Option.filter_eq_some_iff.mpr ⟨rfl, by simpa [workshop, Bench.workshop, Platform.isCapable]
    using hcapable⟩

theorem capableFactory_eq {m m' : Manager Platform Bench} (h : m'.factories = m.factories) :
    m'.capableFactory (workshop dir) target = m.capableFactory (workshop dir) target := by
  rw [Manager.capableFactory, Manager.capableFactory, h]
  rfl

/-- A session in which some assets had their turns and no others, and that is ready for the next one. -/
structure OnCourse (dir : Path) (target : BuildTarget) (pace : Pace) (fs : FileSystem)
    (done : List Path) (s : Session) (js : List SourceJob) : Prop where
  between : Between dir s.manager
  factory : ∃ capabilities, s.manager.capableFactory (workshop dir) target =
    some (.offline ⟨target, capabilities, pace, dir⟩)
  ready : (prepareOutputDir s.manager.world.files dir).2 = .ok ()
  course : Course dir target fs done js s.manager.world.files
  jobs : s.manager.world.jobs = js.map .source
  paces : ∀ j ∈ js, j.pace = pace
  ids : s.jobs = List.range js.length
  failed : s.failed = failedAssets done js

namespace OnCourse

variable {pace : Pace} {fs : FileSystem} {done : List Path} {s s' : Session} {js : List SourceJob}
  {path : Path} {asset : Asset} {pace' : Pace} {j : SourceJob}

theorem prepared (h : OnCourse dir target pace fs done s js) :
    prepareOutputDir s.manager.world.files dir =
      ((prepareOutputDir s.manager.world.files dir).1, .ok ()) :=
  Prod.ext rfl h.ready

theorem pace_eq (h : OnCourse dir target pace fs done s js)
    (hp : ∃ capabilities, s.manager.capableFactory (workshop dir) target =
      some (.offline ⟨target, capabilities, pace', dir⟩)) : pace' = pace := by
  obtain ⟨capabilities, hf⟩ := h.factory
  obtain ⟨capabilities', hf'⟩ := hp
  cases hf.symm.trans hf'
  rfl

theorem turn (h : OnCourse dir target pace fs done s js)
    (hran : Ran dir target s path asset pace' j s') :
    Turn dir target (prepareOutputDir s.manager.world.files dir).1 path j
      s'.manager.world.files ∧ j.pace = pace := by
  obtain rfl := h.pace_eq hran.platform
  rw [hran.job, hran.files]
  exact ⟨turn_finish hran.of_path _ _, SourceJob.finishWithin_pace _ _ _⟩

/-- **One more asset keeps the course**, whether it fails or not. -/
theorem step (h : OnCourse dir target pace fs done s js)
    (hbuilt : Built dir target s path asset pace' j s') :
    OnCourse dir target pace fs (done ++ [path]) s' (js ++ [j]) := by
  obtain ⟨capabilities, hf⟩ := h.factory
  obtain ⟨hturn, hpace⟩ := h.turn hbuilt.toRan
  have hlength : s.manager.world.jobs.length = js.length := by rw [h.jobs, List.length_map]
  constructor
  · exact hbuilt.between
  · exact ⟨capabilities, (capableFactory_eq hbuilt.factories).trans hf⟩
  · rw [prepareOutputDir_again h.ready hturn.keepsWays]
  · exact h.course.concat h.prepared hturn
  · rw [hbuilt.jobs, h.jobs, List.map_append]
    rfl
  · exact List.forall_mem_append.mpr ⟨h.paces, List.forall_mem_singleton.mpr hpace⟩
  · rw [hbuilt.ids, h.ids, hlength, List.length_append, List.length_singleton, List.range_succ]
  · rw [hbuilt.failed, h.failed, failedAssets_concat h.course.length]

/-- The job that was started when a line was refused. -/
theorem cutOff_started {console : Console} {line : String} {cause : ConsoleError}
    (h : OnCourse dir target pace fs done s js) (hs : Started dir target s path asset pace' s')
    (hc : console.refusal s'.printed line = some cause) (paths : List Path) :
    CutOff console dir target pace fs (done ++ path :: paths) s' cause := by
  obtain rfl := h.pace_eq hs.platform
  refine ⟨⟨done, path, paths, js, _, _, _, rfl, h.course, h.prepared,
    Or.inl ⟨asset, hs.of_path, rfl, hs.files⟩, ?_, ?_, hs.ids.trans h.ids⟩, ⟨line, hc⟩, ?_, ?_⟩
  · rw [hs.jobs, h.jobs, List.map_append]
    rfl
  · exact List.forall_mem_append.mpr ⟨h.paces, List.forall_mem_singleton.mpr rfl⟩
  · rw [hs.history]
    intro w hw
    exact h.between.unwarned w (by simpa using hw)
  · rw [hs.history]
    intro r hr
    exact h.between.unlogged r (by simpa using hr)

/-- The job that was complete when a line was refused. -/
theorem cutOff_ran {console : Console} {line : String} {cause : ConsoleError}
    (h : OnCourse dir target pace fs done s js) (hs : Ran dir target s path asset pace' j s')
    (hids : s'.jobs = s.jobs) (hc : console.refusal s'.printed line = some cause)
    (paths : List Path) : CutOff console dir target pace fs (done ++ path :: paths) s' cause := by
  obtain ⟨hturn, hpace⟩ := h.turn hs
  refine ⟨⟨done, path, paths, js, j, _, _, rfl, h.course, h.prepared, Or.inr hturn, ?_, ?_,
    hids.trans h.ids⟩, ⟨line, hc⟩, hs.between.unwarned, hs.between.unlogged⟩
  · rw [hs.jobs, h.jobs, List.map_append]
    rfl
  · exact List.forall_mem_append.mpr ⟨h.paces, List.forall_mem_singleton.mpr hpace⟩

/-- **The loop takes all assets on their course**, up to one that is none, or to a line that the console
refuses. -/
theorem run {console : Console} {paths : List Path} {answer : Except Failure Unit}
    (h : OnCourse dir target pace fs done s js)
    (hb : BuildingAll console dir target s paths s' answer) :
    (answer = .ok () ∧ ∃ js', OnCourse dir target pace fs (done ++ paths) s' js') ∨
    (∃ before path after e js', paths = before ++ path :: after ∧ Asset.ofPath path = .error e ∧
      answer = .error (.invalidAsset e) ∧ OnCourse dir target pace fs (done ++ before) s' js') ∨
    ∃ cause, answer = .error (.console cause) ∧
      CutOff console dir target pace fs (done ++ paths) s' cause := by
  induction hb generalizing done js with
  | nil s => exact Or.inl ⟨rfl, js, by rwa [List.append_nil]⟩
  | @stop s s' path paths e here =>
    obtain ⟨capabilities, hf⟩ := h.factory
    cases here with
    | @invalid cause ha =>
      exact Or.inr (Or.inl ⟨[], path, paths, cause, js, rfl, ha, rfl, by rwa [List.append_nil]⟩)
    | unsupported ha hnone =>
      rw [hf] at hnone
      cases hnone
    | unprepared hcause hs =>
      rw [h.ready] at hcause
      cases hcause
    | unannounced hp hs hc => exact Or.inr (Or.inr ⟨_, rfl, h.cutOff_started hs hc paths⟩)
    | unreported hs hids hc => exact Or.inr (Or.inr ⟨_, rfl, h.cutOff_ran hs hids hc paths⟩)
  | @cons s s₁ s' path paths asset pace' j answer here rest ih =>
    have hrun := ih (h.step here)
    simp only [List.append_assoc, List.singleton_append] at hrun
    rcases hrun with hall | ⟨before, path', after, e, js', rfl, he, hanswer, hcourse⟩ | hcut
    · exact Or.inl hall
    · exact Or.inr (Or.inl ⟨path :: before, path', after, e, js', rfl, he, hanswer, hcourse⟩)
    · exact Or.inr (Or.inr hcut)

end OnCourse

theorem onCourse_opening {config : Config} {fs : FileSystem}
    (ht : config.Supports config.options.target) (hp : (prepareOutputDir fs dir).2 = .ok ())
    (d : Distinct) :
    OnCourse dir config.options.target (config.paceOf config.options.target) fs []
      (opening config dir fs d) [] := by
  obtain ⟨hbetween, hfiles, hjobs⟩ := opening_between config dir fs d
  refine ⟨hbetween, capableFactory_registered ht dir _, ?_, ?_, hjobs, List.forall_mem_nil _, rfl, rfl⟩
  · rw [hfiles]
    exact hp
  · rw [hfiles]
    exact .nil fs

/-- **Failures are counted, and stop nothing.**  For a supported target, an output directory that can be
prepared and arguments that are assets, every distinct asset has its turn, in order, and no submission is
refused.  The analysis succeeds just if no job has a failure.  If some do, it tells their assets in
order, and how many they are out of how many.

All that can stop it is a console that does not take every line, and then it is cut off at the line that
is refused. -/
theorem analyzeAssets_failures (console : Console) {config : Config} {dir : Path} {fs : FileSystem}
    {arguments : List Path} {d : Distinct} (hd : distinct fs arguments = (d, .ok ()))
    (ha : ∀ path ∈ d.paths, ∃ asset, Asset.ofPath path = .ok asset)
    (ht : config.Supports config.options.target) (hp : (prepareOutputDir fs dir).2 = .ok ()) :
    ∃ s answer, analyzeAssets console config dir fs arguments = (s, answer) ∧
      (∀ w, Event.warned w ∉ s.manager.history) ∧ (∀ r, Event.logged r ∉ s.manager.history) ∧
      ((∃ js, Course dir config.options.target fs d.paths js s.manager.world.files ∧
          s.manager.world.jobs = js.map .source ∧ s.jobs = List.range d.paths.length ∧
          let failed := failedAssets d.paths js
          let names := ", ".intercalate (failed.map Path.display)
          (failed = [] ↔ ∀ j ∈ js, j.failure = none) ∧
          (failed = [] → answer = .ok s.jobs) ∧
          (failed ≠ [] → ∃ e, answer = .error e ∧ e = .reports failed d.paths.length ∧
            e.messages =
              [s!"failed to build {failed.length} of {d.paths.length} reports: {names}"])) ∨
        ∃ cause, ¬ console.TakesAll ∧ answer = .error (.console cause) ∧
          CutOff console dir config.options.target (config.paceOf config.options.target) fs d.paths s
            cause) := by
  obtain ⟨hbetween, -⟩ := opening_between config dir fs d
  rcases hb : buildAll console dir config.options.target (opening config dir fs d) d.paths with
    ⟨s, built⟩
  rcases (onCourse_opening ht hp d).run (buildingAll_of_eq hbetween hb) with
    ⟨rfl, js, hcourse⟩ | ⟨before, path, after, e, js, hsplit, he, -⟩ | ⟨cause, rfl, hcut⟩
  · have hlength : s.jobs.length = d.paths.length := by
      rw [hcourse.ids, List.length_range, hcourse.course.length]
      rfl
    refine ⟨s, _, analyzeAssets_of_ok hd hb, hcourse.between.unwarned, hcourse.between.unlogged,
      Or.inl ⟨js, hcourse.course, hcourse.jobs, ?_, hcourse.course.failedAssets_eq_nil, ?_, ?_⟩⟩
    · rw [hcourse.ids, hcourse.course.length]
      rfl
    · intro hnil
      rw [if_pos (hcourse.failed.trans hnil)]
    · intro hne
      rw [if_neg (hcourse.failed ▸ hne), hlength, hcourse.failed]
      exact ⟨_, rfl, rfl, rfl⟩
  · obtain ⟨asset, hasset⟩ := ha path (by simp [hsplit])
    rw [he] at hasset
    cases hasset
  · exact ⟨s, _, analyzeAssets_of_error hd hb, hcut.unwarned, hcut.unlogged,
      Or.inr ⟨cause, hcut.not_takesAll, rfl, hcut⟩⟩

/-! ### A material that is no text -/

/-- The current directory, which holds two materials.  The first one is no text. -/
def stained : FileSystem :=
  ⟨[([Utf8.encode "w"], .directory), ([Utf8.encode "w", Utf8.encode "a.mat"], .file [0xFF]),
    ([Utf8.encode "w", Utf8.encode "b.mat"], .file [])], [Utf8.encode "w"]⟩

theorem walks_stained {aim : Aim} (ha : aim ≠ .writing) {name : String} {content : Bytes}
    (hn : (name, content) ∈ [("a.mat", [0xFF]), ("b.mat", [])]) :
    Walks stained aim maxLinks [Utf8.encode "w"] [Utf8.encode name] false
      (.found [Utf8.encode "w", Utf8.encode name] (.file content) false) := by
  rcases List.mem_pair.mp hn with h | h <;> cases h <;>
    exact .file ⟨by decide, by decide, fun h => ha h.1, by cases aim <;> decide⟩ rfl

theorem canonicalize_stained {name : String} {content : Bytes}
    (hn : (name, content) ∈ [("a.mat", [0xFF]), ("b.mat", [])]) :
    stained.canonicalize (.ofString name) =
      .ok (Location.path [Utf8.encode "w", Utf8.encode name]) := by
  have hwalk : Walks stained .naming _ _ _ _ _ := walks_stained (by decide) hn
  have hres : stained.resolve .naming (.ofString name) =
      .ok (.found [Utf8.encode "w", Utf8.encode name] (.file content) false) := by
    rw [resolve_eq_ok_iff]
    rcases List.mem_pair.mp hn with h | h <;> cases h <;>
      exact ⟨⟨by decide, by decide, by decide⟩, hwalk⟩
  rw [canonicalize, hres]
  rfl

theorem distinct_stained :
    distinct stained [.ofString "a.mat", .ofString "b.mat"] =
      (⟨[.ofString "/w/a.mat", .ofString "/w/b.mat"], []⟩, .ok ()) := by
  have hfirst : stained.canonicalize (.ofString "a.mat") = .ok (.ofString "/w/a.mat") :=
    canonicalize_stained List.mem_cons_self
  have hsecond : stained.canonicalize (.ofString "b.mat") = .ok (.ofString "/w/b.mat") :=
    canonicalize_stained (List.mem_cons_of_mem _ List.mem_cons_self)
  simp only [distinct, Distinct.addAll, Distinct.add, hfirst, hsecond]
  rfl

theorem readText_stained : stained.readText (.ofString "/w/a.mat") = .error .notText := by
  have hread : stained.read (.ofString "/w/a.mat") = .ok [0xFF] := by
    refine read_eq_ok_iff.mpr ⟨[Utf8.encode "w", Utf8.encode "a.mat"], resolve_eq_ok_iff.mpr ⟨?_, ?_⟩⟩
    · exact ⟨by decide, by decide, by decide⟩
    · exact .down ⟨by decide, by decide, by decide, by decide⟩ rfl
        (walks_stained (by decide) List.mem_cons_self)
  have hdecode : Utf8.decode? [0xFF] = none := by decide +kernel
  simp only [readText, hread, bind, Except.bind, hdecode]

/-- The analysis goes on after the first material, and names it. -/
theorem analyzeAssets_failures_stained :
    ∃ (s : Session) (js : List SourceJob) (failed : List Path),
      s.manager.world.jobs = js.map .source ∧ js.length = 2 ∧
      analyzeAssets .unfailing deskConfig ⟨[]⟩ stained [.ofString "a.mat", .ofString "b.mat"] =
        (s, .error (.reports (.ofString "/w/a.mat" :: failed) 2)) := by
  have hprepared : prepareOutputDir stained ⟨[]⟩ = (stained, .ok ()) :=
    prepareOutputDir_of_isDir (.inl rfl)
  have hassets : ∀ path ∈ [Path.ofString "/w/a.mat", .ofString "/w/b.mat"],
      Asset.ofPath path = .ok ⟨.material, path⟩ := by
    decide +kernel
  have hsupports : deskConfig.Supports deskConfig.options.target := ⟨.default, rfl, by decide⟩
  obtain ⟨s, answer, hanswer, -, -, hends⟩ :=
    analyzeAssets_failures .unfailing distinct_stained (fun path hpath => ⟨_, hassets path hpath⟩)
      hsupports (by rw [hprepared])
  rcases hends with ⟨js, hcourse, hjobs, -, -, -, hfailed⟩ | ⟨cause, hrefuses, -⟩
  · have hlength := hcourse.length
    cases hcourse with
    | @cons _ _ _ _ _ _ j js hready turn rest =>
      cases hready.symm.trans hprepared
      have hasset : j.asset = ⟨.material, .ofString "/w/a.mat"⟩ :=
        Except.ok.inj (turn.of_path.symm.trans (hassets _ List.mem_cons_self))
      have hfails : j.failure.isSome = true :=
        turn.failure.mpr (.read (by rw [hasset]; exact readText_stained))
      rw [failedAssets_cons, if_pos hfails] at hfailed
      obtain ⟨e, rfl, rfl, -⟩ := hfailed (by simp)
      exact ⟨s, j :: js, _, hjobs, hlength, hanswer⟩
  · exact absurd (fun _ _ => rfl) hrefuses

end Analyze

end ShaderReport
