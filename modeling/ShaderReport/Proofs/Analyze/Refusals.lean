import Mathlib.Data.List.Nodup
import ShaderReport.Proofs.Analyze.Failures

/-!
# Analyses that stop early

Not every failure waits for all the reports.  Arguments that lead nowhere or clash are refused before
anything else happens (`Clash`, `distinct_cases`).  After that each of the distinct assets can be the
last one:

* the first one, if the target is not supported or the output directory cannot be prepared, and then
  nothing is built (`Unbuilt`);
* any of them, if it is no asset: the ones before it had their turns (`HadTurns`), and the ones after it
  are not even looked at;
* any of them, if the console refuses one of its lines (`CutOff`).

A target that is supported stays so, and a directory that was prepared stays prepared, so neither failure
comes later than that.  `Ending` lists the ways that are left, `analyzeAssets_ending` says that there are
no others, and `analyzeAssets_refused` reads off what each of them takes and leaves.
-/

namespace ShaderReport.Analyze

open FileSystem

/-! ### Arguments that are refused -/

/-- What is wrong with arguments that are refused altogether, and the failure that tells it: one of them
leads nowhere, or two of them lead to different assets of one name. -/
inductive Clash (fs : FileSystem) (arguments : List Path) : Failure → Prop where
  | missing {argument : Path} {cause : FileError} (ha : argument ∈ arguments)
      (hc : fs.canonicalize argument = .error cause) : Clash fs arguments (.missingAsset argument cause)
  | sameName {argument argument' path path' : Path} (ha : argument ∈ arguments)
      (ha' : argument' ∈ arguments) (hc : fs.canonicalize argument = .ok path)
      (hc' : fs.canonicalize argument' = .ok path') (hne : path ≠ path')
      (hname : nameOf path = nameOf path') : Clash fs arguments (.sameName path path')

theorem Distinct.add_eq_error {fs : FileSystem} {d : Distinct} {argument : Path} {e : Failure}
    (h : d.add fs argument = .error e) :
    (∃ cause, fs.canonicalize argument = .error cause ∧ e = .missingAsset argument cause) ∨
      ∃ previous path, previous ∈ d.paths ∧ fs.canonicalize argument = .ok path ∧
        previous ≠ path ∧ nameOf previous = nameOf path ∧ e = .sameName previous path := by
  unfold Distinct.add at h
  cases hc : fs.canonicalize argument with
  | error cause =>
    simp only [hc] at h
    cases h
    exact Or.inl ⟨cause, rfl, rfl⟩
  | ok path =>
    simp only [hc] at h
    cases hf : d.paths.find? (nameOf · = nameOf path) with
    | none =>
      simp only [hf] at h
      cases h
    | some previous =>
      simp only [hf] at h
      by_cases heq : previous = path
      · rw [if_pos heq] at h
        cases h
      · rw [if_neg heq] at h
        cases h
        have hname : nameOf previous = nameOf path := by simpa using List.find?_some hf
        exact Or.inr ⟨previous, path, List.mem_of_find?_eq_some hf, rfl, heq, hname, rfl⟩

/-- The arguments `known` were added before. -/
theorem Distinct.addAll_eq_error {fs : FileSystem} {d d' : Distinct} {known arguments : List Path}
    {e : Failure} (hd : d.Named) (hk : ∀ p ∈ d.paths, ∃ a ∈ known, fs.canonicalize a = .ok p)
    (h : Distinct.addAll fs d arguments = (d', .error e)) : Clash fs (known ++ arguments) e := by
  induction arguments generalizing d known with
  | nil => cases h
  | cons argument arguments ih =>
    have hmem : argument ∈ known ++ argument :: arguments := by simp
    rw [Distinct.addAll] at h
    cases hadd : d.add fs argument with
    | ok d₁ =>
      simp only [hadd] at h
      obtain ⟨path, hpath, hnamed, hpaths⟩ := Distinct.add_eq_ok hd hadd
      have hk₁ : ∀ p ∈ d₁.paths, ∃ a ∈ known ++ [argument], fs.canonicalize a = .ok p := by
        intro p hp
        have hcases : p ∈ d.paths ∨ p = path := by
          rcases hpaths with ⟨-, hsame⟩ | hnew
          · exact Or.inl (hsame ▸ hp)
          · simpa [hnew] using hp
        rcases hcases with hold | rfl
        · obtain ⟨a, ha, hc⟩ := hk p hold
          exact ⟨a, List.mem_append_left _ ha, hc⟩
        · exact ⟨argument, by simp, hpath⟩
      have hclash := ih hnamed hk₁ h
      rwa [List.append_assoc, List.singleton_append] at hclash
    | error e' =>
      simp only [hadd] at h
      obtain rfl : e' = e := Except.error.inj (congrArg Prod.snd h)
      rcases Distinct.add_eq_error hadd with ⟨cause, hc, rfl⟩ |
        ⟨previous, path, hprevious, hc, hne, hname, rfl⟩
      · exact .missing hmem hc
      · obtain ⟨a, ha, hca⟩ := hk previous hprevious
        exact .sameName (List.mem_append_left _ ha) hmem hca hc hne hname

/-- **Arguments are distinct assets, or they clash.** -/
theorem distinct_cases (fs : FileSystem) (arguments : List Path) :
    (∃ d, distinct fs arguments = (d, .ok ()) ∧ ∀ e, ¬ Clash fs arguments e) ∨
      ∃ d e, distinct fs arguments = (d, .error e) ∧ Clash fs arguments e := by
  cases h : distinct fs arguments with
  | mk d found =>
    cases found with
    | error e =>
      have hclash : Clash fs ([] ++ arguments) e :=
        Distinct.addAll_eq_error (d := ⟨[], []⟩) List.nodup_nil nofun h
      exact Or.inr ⟨d, e, rfl, hclash⟩
    | ok _ =>
      obtain ⟨paths, hpaths, hdistinct, hnamed⟩ := distinct_eq_ok h
      refine Or.inl ⟨d, rfl, ?_⟩
      intro e hclash
      cases hclash with
      | missing ha hc =>
        obtain ⟨path, -, hpath⟩ := exists_mem_of_mapM hpaths ha
        rw [hc] at hpath
        cases hpath
      | sameName ha ha' hc hc' hne hname =>
        have hmem : ∀ {argument path}, argument ∈ arguments → fs.canonicalize argument = .ok path →
            path ∈ d.paths := by
          intro argument path ha hc
          obtain ⟨path', hmem, hpath⟩ := exists_mem_of_mapM hpaths ha
          obtain rfl := Except.ok.inj (hc.symm.trans hpath)
          rw [hdistinct, List.mem_eraseDups]
          exact hmem
        exact hne (List.inj_on_of_nodup_map hnamed (hmem ha hc) (hmem ha' hc') hname)

/-! ### The session before the first asset -/

/-- A session in which nothing is built: no job was ticked, and nothing was printed. -/
structure Unbuilt (s : Session) (fs : FileSystem) (jobs : List Job) : Prop where
  files : s.manager.world.files = fs
  jobs : s.manager.world.jobs = jobs
  unticked : ∀ job complete, Event.ticked job complete ∉ s.manager.history
  printed : s.printed = []

section Opening

variable (config : Config) (dir : Path) (fs : FileSystem) (d : Distinct)

theorem registered_history (bench : Bench) : (registered config dir bench).history = [] := by
  rw [registered]
  refine List.foldlRecOn (motive := fun m : Manager Platform Bench => m.history = []) _ _ rfl ?_
  intro m h platform hmem
  exact h

theorem opening_unbuilt : Unbuilt (opening config dir fs d) fs [] := by
  obtain ⟨-, hfiles, hjobs⟩ := opening_between config dir fs d
  refine ⟨hfiles, hjobs, ?_, rfl⟩
  intro job complete hmem
  rw [opening, registered_history] at hmem
  cases hmem

end Opening

theorem capableFactory_unsupported {config : Config} {target : BuildTarget}
    (h : ¬ config.Supports target) (dir : Path) (bench : Bench) :
    (registered config dir bench).capableFactory (workshop dir) target = none := by
  rw [Manager.capableFactory, lookup_registered]
  cases hlookup : config.platforms.reverse.lookup target with
  | none => rfl
  | some platform =>
    apply Option.filter_eq_none_iff.mpr
    intro p hp hcapable
    cases hp
    exact h ⟨platform, hlookup, by
      simpa [workshop, Bench.workshop, Platform.isCapable] using hcapable⟩

/-! ### The first asset -/

section First

variable {dir : Path} {target : BuildTarget} {s s' : Session} {path : Path} {asset : Asset} {pace : Pace}

theorem Unbuilt.warn {fs : FileSystem} {jobs : List Job} (h : Unbuilt s fs jobs) (w : Warning) :
    Unbuilt { s with manager := s.manager.warn (workshop dir) w } fs jobs := by
  refine ⟨h.files, h.jobs, ?_, h.printed⟩
  intro job complete hmem
  rcases List.mem_cons.mp hmem with heq | hmem
  · cases heq
  · exact h.unticked job complete hmem

theorem Unbuilt.started {fs : FileSystem} {jobs : List Job} (h : Unbuilt s fs jobs)
    (hs : Started dir target s path asset pace s') :
    Unbuilt s' (prepareOutputDir fs dir).1 (jobs ++ [.source (.new asset target pace dir)]) := by
  refine ⟨?_, ?_, ?_, hs.printed.trans h.printed⟩
  · rw [hs.files, h.files]
  · rw [hs.jobs, h.jobs]
  · intro job complete hmem
    rw [hs.history] at hmem
    exact h.unticked job complete (by simpa using hmem)

end First

/-! ### Paths that are assets -/

/-- Whether all paths are those of assets. -/
def AreAssets (paths : List Path) : Prop :=
  ∀ path ∈ paths, ∃ asset, Asset.ofPath path = .ok asset

theorem Course.areAssets {dir : Path} {target : BuildTarget} {fs fs' : FileSystem} {paths : List Path}
    {js : List SourceJob} (h : Course dir target fs paths js fs') : AreAssets paths := by
  induction h with
  | nil fs => exact List.forall_mem_nil _
  | cons hready turn rest ih => exact List.forall_mem_cons.mpr ⟨⟨_, turn.of_path⟩, ih⟩

theorem exists_append_of_not_mem {before before' after after' : List Path} {path path' : Path}
    (h : before ++ path :: after = before' ++ path' :: after') (hp : path' ∉ before ++ [path]) :
    ∃ rest, before' = before ++ path :: rest := by
  rcases List.append_eq_append_iff.mp h with ⟨rest, rfl, hrest⟩ | ⟨rest, rfl, hrest⟩
  · cases rest with
    | nil =>
      cases hrest
      simp at hp
    | cons first rest =>
      cases hrest
      exact ⟨rest, rfl⟩
  · cases rest with
    | nil =>
      cases hrest
      simp at hp
    | cons first rest =>
      cases hrest
      simp at hp

theorem first_invalid_unique {before before' after after' : List Path} {path path' : Path}
    {e e' : InvalidAsset} (h : before ++ path :: after = before' ++ path' :: after')
    (hvalid : AreAssets before) (hvalid' : AreAssets before') (hp : Asset.ofPath path = .error e)
    (hp' : Asset.ofPath path' = .error e') : before = before' ∧ e = e' := by
  induction before generalizing before' with
  | nil =>
    cases before' with
    | nil =>
      cases h
      exact ⟨rfl, Except.error.inj (hp.symm.trans hp')⟩
    | cons first before' =>
      cases h
      obtain ⟨asset, ha⟩ := hvalid' path List.mem_cons_self
      rw [hp] at ha
      cases ha
  | cons first before ih =>
    obtain ⟨asset, ha⟩ := hvalid first List.mem_cons_self
    cases before' with
    | nil =>
      cases h
      rw [hp'] at ha
      cases ha
    | cons first' before' =>
      obtain ⟨rfl, htail⟩ := List.cons.inj h
      obtain ⟨rfl, he⟩ := ih htail (List.forall_mem_cons.mp hvalid).2 (List.forall_mem_cons.mp hvalid').2
      exact ⟨rfl, he⟩

/-! ### How an analysis ends -/

section Endings

variable {console : Console} {config : Config} {dir : Path} {fs : FileSystem} {arguments : List Path}
  {d : Distinct}

/-- Whether the target is supported and the output directory can be prepared. -/
def IsReady (config : Config) (dir : Path) (fs : FileSystem) : Prop :=
  config.Supports config.options.target ∧ (prepareOutputDir fs dir).2 = .ok ()

/-- A session in which some assets had their turns, and no others. -/
def HadTurns (config : Config) (dir : Path) (fs : FileSystem) (paths : List Path) (s : Session) :
    Prop :=
  ∃ js, Course dir config.options.target fs paths js s.manager.world.files ∧
    s.manager.world.jobs = js.map .source ∧ ∀ j ∈ js, j.pace = config.paceOf config.options.target

/-- The ways in which an analysis of distinct assets ends. -/
inductive Ending (console : Console) (config : Config) (dir : Path) (fs : FileSystem) :
    List Path → Session → Except Failure (List JobId) → Prop where
  | unsupported {path : Path} {paths : List Path} {asset : Asset} {s : Session}
      (ha : Asset.ofPath path = .ok asset) (ht : ¬ config.Supports config.options.target)
      (hs : Unbuilt s fs []) :
      Ending console config dir fs (path :: paths) s (.error (.notStarted path config.options.target))
  | unprepared {path : Path} {paths : List Path} {asset : Asset} {cause : FileError} {s : Session}
      (ha : Asset.ofPath path = .ok asset) (ht : config.Supports config.options.target)
      (hp : (prepareOutputDir fs dir).2 = .error cause)
      (hs : Unbuilt s (prepareOutputDir fs dir).1 [.source
        (.new asset config.options.target (config.paceOf config.options.target) dir)]) :
      Ending console config dir fs (path :: paths) s (.error (.outputDir dir cause))
  | invalid {before after : List Path} {path : Path} {e : InvalidAsset} {s : Session}
      (hvalid : AreAssets before) (ha : Asset.ofPath path = .error e)
      (hready : before ≠ [] → IsReady config dir fs) (hturns : HadTurns config dir fs before s) :
      Ending console config dir fs (before ++ path :: after) s (.error (.invalidAsset e))
  | through {paths : List Path} {s : Session} {answer : Except Failure (List JobId)}
      (hvalid : AreAssets paths) (hready : paths ≠ [] → IsReady config dir fs)
      (hturns : HadTurns config dir fs paths s)
      (hanswer : ∀ e, answer = .error e → e = .reports s.failed s.jobs.length) :
      Ending console config dir fs paths s answer
  | cutOff {paths : List Path} {s : Session} {cause : ConsoleError} (hready : IsReady config dir fs)
      (hcut : CutOff console dir config.options.target (config.paceOf config.options.target) fs paths s
        cause) :
      Ending console config dir fs paths s (.error (.console cause))

theorem OnCourse.hadTurns {paths : List Path} {s : Session} {js : List SourceJob}
    (h : OnCourse dir config.options.target (config.paceOf config.options.target) fs paths s js) :
    HadTurns config dir fs paths s :=
  ⟨js, h.course, h.jobs, h.paces⟩

theorem hadTurns_opening : HadTurns config dir fs [] (opening config dir fs d) := by
  obtain ⟨-, hfiles, hjobs⟩ := opening_between config dir fs d
  refine ⟨[], ?_, hjobs, List.forall_mem_nil _⟩
  rw [hfiles]
  exact .nil fs

/-- The platform that is found is the one that was declared last for the target. -/
theorem opening_platform {pace : Pace} (h : ∃ capabilities,
    (opening config dir fs d).manager.capableFactory (workshop dir) config.options.target =
      some (.offline ⟨config.options.target, capabilities, pace, dir⟩)) :
    config.Supports config.options.target ∧ pace = config.paceOf config.options.target := by
  obtain ⟨capabilities, hf⟩ := h
  have ht : config.Supports config.options.target := by
    by_contra hno
    rw [opening, capableFactory_unsupported hno] at hf
    cases hf
  obtain ⟨capabilities', hf'⟩ := capableFactory_registered ht dir
    ((d.skipped.map skipping).foldl Bench.say (.ofFiles fs))
  rw [opening, hf'] at hf
  cases hf
  exact ⟨ht, rfl⟩

theorem ending_of_not_isReady {path : Path} {paths : List Path} {s : Session}
    {built : Except Failure Unit} (hready : ¬ IsReady config dir fs)
    (hb : BuildingAll console dir config.options.target (opening config dir fs d) (path :: paths) s
      built) :
    ∃ e, built = .error e ∧ Ending console config dir fs (path :: paths) s (.error e) := by
  obtain ⟨-, hfiles, -⟩ := opening_between config dir fs d
  have hopen := opening_unbuilt config dir fs d
  -- Where a job was started and the directory prepared, everything was ready.
  have hno : ∀ {pace}, (∃ capabilities, (opening config dir fs d).manager.capableFactory
        (workshop dir) config.options.target =
          some (.offline ⟨config.options.target, capabilities, pace, dir⟩)) →
      (prepareOutputDir (opening config dir fs d).manager.world.files dir).2 ≠ .ok () := by
    intro pace hp hprepared
    rw [hfiles] at hprepared
    exact hready ⟨(opening_platform hp).1, hprepared⟩
  cases hb with
  | stop here =>
    cases here with
    | invalid ha =>
      have hending : Ending console config dir fs ([] ++ path :: paths) (opening config dir fs d) _ :=
        .invalid (List.forall_mem_nil _) ha (fun hne => absurd rfl hne) hadTurns_opening
      exact ⟨_, rfl, hending⟩
    | unsupported ha hf =>
      refine ⟨_, rfl, .unsupported ha ?_ (hopen.warn _)⟩
      intro ht
      obtain ⟨capabilities, hf'⟩ := capableFactory_registered ht dir
        ((d.skipped.map skipping).foldl Bench.say (.ofFiles fs))
      rw [opening, hf'] at hf
      cases hf
    | unprepared hp hs =>
      obtain ⟨ht, rfl⟩ := opening_platform hs.platform
      rw [hfiles] at hp
      exact ⟨_, rfl, .unprepared hs.of_path ht hp (hopen.started hs)⟩
    | unannounced hp hs => exact absurd hp (hno hs.platform)
    | unreported hs => exact absurd hs.prepared (hno hs.platform)
  | cons here => exact absurd here.prepared (hno here.platform)

/-- **An analysis of distinct assets ends in one of these ways.** -/
theorem analyzeAssets_ending (console : Console) (config : Config) (dir : Path)
    (hd : distinct fs arguments = (d, .ok ())) :
    ∃ s answer, analyzeAssets console config dir fs arguments = (s, answer) ∧
      Ending console config dir fs d.paths s answer := by
  obtain ⟨hbetween, -⟩ := opening_between config dir fs d
  rcases hb : buildAll console dir config.options.target (opening config dir fs d) d.paths with
    ⟨s, built⟩
  have hbuilding := buildingAll_of_eq hbetween hb
  have hreports : ∀ e, (if s.failed = [] then (.ok s.jobs : Except Failure (List JobId))
      else .error (.reports s.failed s.jobs.length)) = .error e →
        e = .reports s.failed s.jobs.length := by
    intro e he
    split at he
    · cases he
    · exact (Except.error.inj he).symm
  by_cases hready : IsReady config dir fs
  · rcases (onCourse_opening hready.1 hready.2 d).run hbuilding with
      ⟨rfl, js, hcourse⟩ | ⟨before, path, after, e, js, hsplit, he, rfl, hcourse⟩ | ⟨cause, rfl, hcut⟩
    · exact ⟨s, _, analyzeAssets_of_ok hd hb, .through hcourse.course.areAssets (fun _ => hready)
        hcourse.hadTurns hreports⟩
    · rw [hsplit]
      exact ⟨s, _, analyzeAssets_of_error hd hb, .invalid hcourse.course.areAssets he
        (fun _ => hready) hcourse.hadTurns⟩
    · exact ⟨s, _, analyzeAssets_of_error hd hb, .cutOff hready hcut⟩
  · cases hpaths : d.paths with
    | nil =>
      rw [hpaths] at hbuilding
      cases hbuilding
      exact ⟨_, _, analyzeAssets_of_ok hd hb, .through (List.forall_mem_nil _)
        (fun hne => absurd rfl hne) hadTurns_opening hreports⟩
    | cons path paths =>
      rw [hpaths] at hbuilding
      obtain ⟨e, rfl, hending⟩ := ending_of_not_isReady hready hbuilding
      exact ⟨s, _, analyzeAssets_of_error hd hb, hending⟩

namespace Ending

variable {path : Path} {assets rest : List Path} {asset : Asset} {s : Session}
  {answer : Except Failure (List JobId)}

theorem first (h : Ending console config dir fs assets s answer) (hassets : assets = path :: rest)
    (ha : Asset.ofPath path = .ok asset) :
    (¬ config.Supports config.options.target ∧
        answer = .error (.notStarted path config.options.target)) ∨
      (config.Supports config.options.target ∧
        ∃ cause, (prepareOutputDir fs dir).2 = .error cause ∧ answer = .error (.outputDir dir cause)) ∨
      IsReady config dir fs := by
  cases h with
  | unsupported ha' ht hs =>
    cases hassets
    exact Or.inl ⟨ht, rfl⟩
  | unprepared ha' ht hp hs => exact Or.inr (Or.inl ⟨ht, _, hp, rfl⟩)
  | @invalid before after p e _ hvalid he hready hturns =>
    cases before with
    | nil =>
      cases hassets
      rw [ha] at he
      cases he
    | cons => exact Or.inr (Or.inr (hready (List.cons_ne_nil _ _)))
  | through hvalid hready hturns hanswer =>
    exact Or.inr (Or.inr (hready (hassets ▸ List.cons_ne_nil _ _)))
  | cutOff hready hcut => exact Or.inr (Or.inr hready)

theorem jobs (h : Ending console config dir fs assets s answer) (hassets : assets = path :: rest)
    (ha : Asset.ofPath path = .ok asset) :
    (s.manager.world.jobs ≠ [] ↔ config.Supports config.options.target) ∧
      ∀ job ∈ s.manager.world.jobs, ∃ j, job = .source j ∧
        j.pace = config.paceOf config.options.target := by
  -- Assets that had their turns have jobs.
  have hall : ∀ {first before}, (first :: before ≠ [] → IsReady config dir fs) →
      HadTurns config dir fs (first :: before) s →
      (s.manager.world.jobs ≠ [] ↔ config.Supports config.options.target) ∧
        ∀ job ∈ s.manager.world.jobs, ∃ j, job = .source j ∧
          j.pace = config.paceOf config.options.target := by
    rintro first before hready ⟨js, hcourse, hjobs, hpace⟩
    rw [hjobs]
    refine ⟨⟨fun _ => (hready (List.cons_ne_nil _ _)).1, fun _ => ?_⟩, ?_⟩
    · cases hcourse
      exact List.cons_ne_nil _ _
    · intro job hjob
      obtain ⟨j, hj, rfl⟩ := List.mem_map.mp hjob
      exact ⟨j, rfl, hpace j hj⟩
  cases h with
  | unsupported ha' ht hs =>
    rw [hs.jobs]
    exact ⟨⟨fun hne => absurd rfl hne, fun hyes => absurd hyes ht⟩, List.forall_mem_nil _⟩
  | unprepared ha' ht hp hs =>
    rw [hs.jobs]
    refine ⟨⟨fun _ => ht, fun _ => List.cons_ne_nil _ _⟩, ?_⟩
    intro job hjob
    exact ⟨_, List.mem_singleton.mp hjob, rfl⟩
  | @invalid before after p e _ hvalid he hready hturns =>
    cases before with
    | nil =>
      cases hassets
      rw [ha] at he
      cases he
    | cons first before => exact hall hready hturns
  | through hvalid hready hturns hanswer =>
    subst hassets
    exact hall hready hturns
  | cutOff hready hcut =>
    obtain ⟨before, p, after, js, j, files, ready, -, -, -, -, hjobs, hpaces, -⟩ := hcut.jobs
    rw [hjobs]
    refine ⟨⟨fun _ => hready.1, fun _ => by simp⟩, ?_⟩
    intro job hjob
    obtain ⟨j', hj', rfl⟩ := List.mem_map.mp hjob
    exact ⟨j', rfl, hpaces j' hj'⟩

theorem first_invalid {before after : List Path} {e : InvalidAsset}
    (h : Ending console config dir fs assets s answer) (hassets : assets = before ++ path :: after)
    (hvalid : AreAssets before) (hp : Asset.ofPath path = .error e)
    (hready : before ≠ [] → IsReady config dir fs) :
    (answer = .error (.invalidAsset e) ∧ HadTurns config dir fs before s) ∨
      ∃ cause, answer = .error (.console cause) ∧ CutOff console dir config.options.target
        (config.paceOf config.options.target) fs before s cause := by
  -- An asset in front of it is one before it, for which everything is ready.
  have hfirst : ∀ {p rest asset}, assets = p :: rest → Asset.ofPath p = .ok asset → before ≠ [] := by
    rintro p rest asset hcons ha rfl
    rw [hassets] at hcons
    cases hcons
    rw [hp] at ha
    cases ha
  cases h with
  | unsupported ha ht hs => exact absurd (hready (hfirst rfl ha)).1 ht
  | unprepared ha ht hcause hs =>
    rw [(hready (hfirst rfl ha)).2] at hcause
    cases hcause
  | invalid hvalid' he hready' hturns =>
    obtain ⟨rfl, rfl⟩ := first_invalid_unique hassets hvalid' hvalid he hp
    exact Or.inl ⟨rfl, hturns⟩
  | through hvalid' hready' hturns hanswer =>
    obtain ⟨asset, ha⟩ := hvalid' path (by simp [hassets])
    rw [hp] at ha
    cases ha
  | cutOff hready' hcut =>
    obtain ⟨first, p, rest, js, j, files, ready, hsplit, hcourse, hprepared, hown, hjobs⟩ := hcut.jobs
    -- All the assets up to the one at hand are assets, so the path that is none comes after them.
    have hasset : ∃ asset, Asset.ofPath p = .ok asset := by
      rcases hown with ⟨asset, ha, -⟩ | hturn
      · exact ⟨asset, ha⟩
      · exact ⟨_, hturn.of_path⟩
    have hlate : path ∉ first ++ [p] := by
      intro hmem
      obtain ⟨asset, ha⟩ : ∃ asset, Asset.ofPath path = .ok asset := by
        rcases List.mem_append.mp hmem with hmem | hmem
        · exact hcourse.areAssets path hmem
        · exact List.mem_singleton.mp hmem ▸ hasset
      rw [hp] at ha
      cases ha
    obtain ⟨more, hmore⟩ := exists_append_of_not_mem (hsplit.symm.trans hassets) hlate
    exact Or.inr ⟨_, rfl, ⟨first, p, more, js, j, files, ready, hmore, hcourse, hprepared, hown, hjobs⟩,
      hcut.refused, hcut.unwarned, hcut.unlogged⟩

end Ending

end Endings

/-- **What stops an analysis early, and what it has done until then.**

* If an argument leads nowhere, or two of them lead to different assets of one name, nothing is done.
* A target that is not supported and an output directory that cannot be prepared are told with the first
  of the distinct assets, or not at all.  Then nothing is built, and at most directories are new.
* The first path that is no asset is told when all the assets before it have had their turns, if there
  are any, and no other job is created.  Only a console that does not take every line may come before
  that, and then the analysis is cut off among the assets before it. -/
theorem analyzeAssets_refused (console : Console) (config : Config) (dir : Path) (fs : FileSystem)
    (arguments : List Path) :
    let target := config.options.target
    let s := (analyzeAssets console config dir fs arguments).1
    let answer := (analyzeAssets console config dir fs arguments).2
    let preparation := (prepareOutputDir fs dir).2
    ((∃ e, Clash fs arguments e) →
      ∃ e, Clash fs arguments e ∧ answer = .error e ∧ Unbuilt s fs []) ∧
    ((∀ e, ¬ Clash fs arguments e) → ∃ paths assets, arguments.mapM fs.canonicalize = .ok paths ∧
      assets = paths.eraseDups ∧
      (∀ path rest asset, assets = path :: rest → Asset.ofPath path = .ok asset →
        (¬ config.Supports target → answer = .error (.notStarted path target)) ∧
        (config.Supports target → ∀ cause, preparation = .error cause →
          answer = .error (.outputDir dir cause))) ∧
      (∀ path t, answer = .error (.notStarted path t) →
        t = target ∧ ¬ config.Supports target ∧ assets.head? = some path ∧ Unbuilt s fs []) ∧
      (∀ p cause, answer = .error (.outputDir p cause) →
        p = dir ∧ config.Supports target ∧ preparation = .error cause ∧
        ∃ path asset, assets.head? = some path ∧ Asset.ofPath path = .ok asset ∧
          AddsDirectories fs s.manager.world.files ∧
          Unbuilt s s.manager.world.files
            [.source (.new asset target (config.paceOf target) dir)]) ∧
      (∀ before path after e, assets = before ++ path :: after →
        (∀ p ∈ before, ∃ asset, Asset.ofPath p = .ok asset) → Asset.ofPath path = .error e →
        (before ≠ [] → config.Supports target ∧ preparation = .ok ()) →
        (answer = .error (.invalidAsset e) ∧
          ∃ js, Course dir target fs before js s.manager.world.files ∧
            s.manager.world.jobs = js.map .source ∧ js.length = before.length) ∨
        ∃ cause, ¬ console.TakesAll ∧ answer = .error (.console cause) ∧
          CutOff console dir target (config.paceOf target) fs before s cause)) := by
  intro target s answer preparation
  rcases distinct_cases fs arguments with ⟨d, hd, hno⟩ | ⟨d, e, hd, hclash⟩
  · refine ⟨fun ⟨e, hclash⟩ => absurd hclash (hno e), fun _ => ?_⟩
    obtain ⟨paths, hpaths, hassets, -⟩ := distinct_eq_ok hd
    obtain ⟨s', answer', hrun, hending⟩ := analyzeAssets_ending console config dir hd
    obtain rfl : s = s' := congrArg Prod.fst hrun
    obtain rfl : answer = answer' := congrArg Prod.snd hrun
    refine ⟨paths, d.paths, hpaths, hassets, ?_, ?_, ?_, ?_⟩
    · intro path rest asset hcons ha
      rcases hending.first hcons ha with ⟨ht, hanswer⟩ | ⟨ht, cause, hp, hanswer⟩ | ⟨ht, hp⟩
      · exact ⟨fun _ => hanswer, fun hyes => absurd hyes ht⟩
      · refine ⟨fun hno => absurd ht hno, ?_⟩
        intro _ cause' hp'
        cases hp.symm.trans hp'
        exact hanswer
      · refine ⟨fun hno => absurd ht hno, ?_⟩
        intro _ cause' hp'
        cases hp.symm.trans hp'
    · intro path t hanswer
      rw [hanswer] at hending
      generalize d.paths = assets at hending
      cases hending with
      | unsupported ha ht hs => exact ⟨rfl, ht, rfl, hs⟩
      | through hvalid hready hturns hreports => cases hreports _ rfl
    · intro p cause hanswer
      rw [hanswer] at hending
      generalize d.paths = assets at hending
      cases hending with
      | unprepared ha ht hp hs =>
        refine ⟨rfl, ht, hp, _, _, rfl, ha, ?_, ?_⟩
        · rw [hs.files]
          exact prepareOutputDir_adds fs dir
        · rw [hs.files]
          exact hs
      | through hvalid hready hturns hreports => cases hreports _ rfl
    · intro before path after e hsplit hvalid hp hready
      rcases hending.first_invalid hsplit hvalid hp hready with
        ⟨hanswer, js, hcourse, hjobs, -⟩ | ⟨cause, hanswer, hcut⟩
      · exact Or.inl ⟨hanswer, js, hcourse, hjobs, hcourse.length⟩
      · exact Or.inr ⟨cause, hcut.not_takesAll, hanswer, hcut⟩
  · have hrun : analyzeAssets console config dir fs arguments = _ := analyzeAssets_of_refused hd
    have hopen : Unbuilt s fs [] := by
      rw [show s = opening config dir fs d from congrArg Prod.fst hrun]
      exact opening_unbuilt config dir fs d
    exact ⟨fun _ => ⟨e, hclash, congrArg Prod.snd hrun, hopen⟩, fun hno => absurd hclash (hno e)⟩

end ShaderReport.Analyze
