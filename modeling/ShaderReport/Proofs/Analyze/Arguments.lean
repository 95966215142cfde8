import ShaderReport.Proofs.Analyze.Refusals

/-!
# Which arguments are accepted

Arguments are taken one by one, each against the assets that were accepted before it.  `distinct_checked`
says what this comes to for all of them together:

* They are accepted if they are distinct assets as a whole (`AreDistinct`), in whatever order they stand.
  What is left is each asset once, and the arguments that were skipped make up the rest
  (`Distinct.addAll_skips`).
* Otherwise there is a first one that cannot be added to those before it (`Distinct.addAll_eq_error_iff`),
  and the failure says what is wrong with it (`Offends`).

Every argument that was skipped is warned of in the log, before anything else.  What is logged later is
told apart from these warnings by its first word (`analyzeAssets_logsMore`).
-/

namespace ShaderReport.Analyze

/-- Whether arguments are distinct assets: all of them are found, and none of them are different assets of
one name. -/
structure AreDistinct (fs : FileSystem) (arguments : List Path) : Prop where
  found : ∀ a ∈ arguments, ∃ path, fs.canonicalize a = .ok path
  named : ∀ a ∈ arguments, ∀ a' ∈ arguments, ∀ path path', fs.canonicalize a = .ok path →
    fs.canonicalize a' = .ok path' → nameOf path = nameOf path' → path = path'

/-- What is wrong with an argument that comes after others, and the failure that tells it: it leads
nowhere, or to another asset than one before it that has the same name. -/
inductive Offends (fs : FileSystem) (before : List Path) (argument : Path) : Failure → Prop where
  | missing {cause : FileError} (hc : fs.canonicalize argument = .error cause) :
      Offends fs before argument (.missingAsset argument cause)
  | sameName {earlier previous path : Path} (he : earlier ∈ before)
      (hp : fs.canonicalize earlier = .ok previous) (hc : fs.canonicalize argument = .ok path)
      (hne : previous ≠ path) (hname : nameOf previous = nameOf path) :
      Offends fs before argument (.sameName previous path)

variable {fs : FileSystem}

theorem areDistinct_iff {arguments : List Path} :
    AreDistinct fs arguments ↔ ∀ e, ¬ Clash fs arguments e := by
  constructor
  · intro h e hclash
    cases hclash with
    | missing ha hc =>
      obtain ⟨path, hpath⟩ := h.found _ ha
      cases hc.symm.trans hpath
    | sameName ha ha' hc hc' hne hname => exact hne (h.named _ ha _ ha' _ _ hc hc' hname)
  · intro h
    constructor
    · intro a ha
      cases hc : fs.canonicalize a with
      | ok path => exact ⟨path, rfl⟩
      | error cause => exact absurd (.missing ha hc) (h _)
    · intro a ha a' ha' path path' hc hc' hname
      by_contra hne
      exact h _ (.sameName ha ha' hc hc' hne hname)

theorem AreDistinct.perm {arguments arguments' : List Path} (h : arguments.Perm arguments') :
    AreDistinct fs arguments ↔ AreDistinct fs arguments' := by
  have hmem : ∀ a, a ∈ arguments ↔ a ∈ arguments' := fun a => h.mem_iff
  constructor
  · rintro ⟨hfound, hnamed⟩
    simp only [hmem] at hfound hnamed
    exact ⟨hfound, hnamed⟩
  · rintro ⟨hfound, hnamed⟩
    simp only [← hmem] at hfound hnamed
    exact ⟨hfound, hnamed⟩

theorem distinct_ok_iff {arguments : List Path} :
    (distinct fs arguments).2 = .ok () ↔ AreDistinct fs arguments := by
  rw [areDistinct_iff]
  rcases distinct_cases fs arguments with ⟨d, hd, hno⟩ | ⟨d, e, hd, hclash⟩
  · rw [hd]
    exact ⟨fun _ => hno, fun _ => rfl⟩
  · rw [hd]
    refine ⟨?_, fun hno => absurd hclash (hno e)⟩
    intro hok
    cases hok

namespace Distinct

variable {d d' : Distinct} {argument : Path} {arguments before after : List Path} {e : Failure}

/-! ### What is skipped -/

theorem add_skips (h : d.add fs argument = .ok d') :
    (d'.paths.length = d.paths.length + 1 ∧ d'.skipped = d.skipped) ∨
      (d'.paths = d.paths ∧ d'.skipped = d.skipped ++ [argument]) := by
  rw [add] at h
  split at h
  · cases h
  · split at h
    · cases h
      exact Or.inl ⟨List.length_append, rfl⟩
    · split at h
      · cases h
        exact Or.inr ⟨rfl, rfl⟩
      · cases h

theorem addAll_skips (h : addAll fs d arguments = (d', .ok ())) :
    ∃ skipped, d'.skipped = d.skipped ++ skipped ∧ skipped.Sublist arguments ∧
      d'.paths.length + skipped.length = d.paths.length + arguments.length := by
  induction arguments generalizing d with
  | nil =>
    cases h
    exact ⟨[], (List.append_nil _).symm, List.Sublist.slnil, rfl⟩
  | cons argument arguments ih =>
    rw [addAll] at h
    cases hadd : d.add fs argument with
    | error e => simp [hadd] at h
    | ok d₁ =>
      simp only [hadd] at h
      obtain ⟨skipped, hskipped, hsub, hlength⟩ := ih h
      rcases add_skips hadd with ⟨hpaths, hsame⟩ | ⟨hpaths, hnew⟩
      · refine ⟨skipped, by rw [hskipped, hsame], hsub.cons argument, ?_⟩
        rw [List.length_cons]
        omega
      · refine ⟨argument :: skipped, ?_, hsub.cons_cons argument, ?_⟩
        · rw [hskipped, hnew, List.append_assoc, List.singleton_append]
        · rw [hpaths] at hlength
          rw [List.length_cons, List.length_cons]
          omega

/-! ### The first argument that is refused -/

theorem addAll_append (h : addAll fs d before = (d', .ok ())) :
    addAll fs d (before ++ after) = addAll fs d' after := by
  induction before generalizing d with
  | nil =>
    cases h
    rfl
  | cons argument before ih =>
    rw [addAll] at h
    rw [List.cons_append, addAll]
    cases hadd : d.add fs argument with
    | error e => simp [hadd] at h
    | ok d₁ =>
      simp only [hadd] at h ⊢
      exact ih h

/-- **The first argument that cannot be added stops the others.** -/
theorem addAll_eq_error_iff :
    addAll fs d arguments = (d', .error e) ↔
      ∃ before argument after, arguments = before ++ argument :: after ∧
        addAll fs d before = (d', .ok ()) ∧ d'.add fs argument = .error e := by
  constructor
  · intro h
    induction arguments generalizing d with
    | nil => cases h
    | cons argument arguments ih =>
      rw [addAll] at h
      cases hadd : d.add fs argument with
      | error e' =>
        simp only [hadd] at h
        cases h
        exact ⟨[], argument, arguments, rfl, rfl, hadd⟩
      | ok d₁ =>
        simp only [hadd] at h
        obtain ⟨before, argument', after, rfl, hbefore, hrefused⟩ := ih h
        refine ⟨argument :: before, argument', after, rfl, ?_, hrefused⟩
        rw [addAll, hadd]
        exact hbefore
  · rintro ⟨before, argument, after, rfl, hbefore, hrefused⟩
    rw [addAll_append hbefore, addAll, hrefused]

theorem Named.find?_eq (hnamed : d.Named) {previous path : Path} (hmem : previous ∈ d.paths)
    (hname : nameOf previous = nameOf path) :
    d.paths.find? (nameOf · = nameOf path) = some previous := by
  cases hfind : d.paths.find? (nameOf · = nameOf path) with
  | none => exact absurd (decide_eq_true hname) (List.find?_eq_none.mp hfind previous hmem)
  | some other =>
    have hother : nameOf other = nameOf path := by simpa using List.find?_some hfind
    rw [List.inj_on_of_nodup_map hnamed (List.mem_of_find?_eq_some hfind) hmem
      (hother.trans hname.symm)]

/-- An argument is refused for what is wrong with it after those that were accepted. -/
theorem add_eq_error_iff (hnamed : d.Named)
    (hpaths : ∀ p, p ∈ d.paths ↔ ∃ a ∈ before, fs.canonicalize a = .ok p) :
    d.add fs argument = .error e ↔ Offends fs before argument e := by
  constructor
  · intro h
    rcases add_eq_error h with ⟨cause, hc, rfl⟩ | ⟨previous, path, hmem, hc, hne, hname, rfl⟩
    · exact .missing hc
    · obtain ⟨earlier, he, hp⟩ := (hpaths previous).mp hmem
      exact .sameName he hp hc hne hname
  · intro h
    cases h with
    | missing hc => rw [add, hc]
    | sameName he hp hc hne hname =>
      rw [add, hc]
      simp only [hnamed.find?_eq ((hpaths _).mpr ⟨_, he, hp⟩) hname, if_neg hne]

end Distinct

/-! ### All arguments together -/

theorem mem_paths_iff {d : Distinct} {arguments : List Path}
    (h : distinct fs arguments = (d, .ok ())) (p : Path) :
    p ∈ d.paths ↔ ∃ a ∈ arguments, fs.canonicalize a = .ok p := by
  obtain ⟨paths, hpaths, hdistinct, -⟩ := distinct_eq_ok h
  rw [hdistinct, List.mem_eraseDups]
  constructor
  · intro hp
    exact exists_mem_of_mem_mapM hpaths hp
  · rintro ⟨a, ha, hc⟩
    obtain ⟨p', hp', hc'⟩ := exists_mem_of_mapM hpaths ha
    obtain rfl := Except.ok.inj (hc.symm.trans hc')
    exact hp'

/-! ### What is logged -/

/-- A log with more records, none of which is the warning of a skipped argument. -/
def LogsMore (log log' : List LogRecord) : Prop :=
  ∃ new, log' = new ++ log ∧ ∀ r ∈ new, ∀ argument, r ≠ skipping argument

theorem LogsMore.refl (log : List LogRecord) : LogsMore log log :=
  ⟨[], rfl, List.forall_mem_nil _⟩

theorem LogsMore.trans {log₁ log₂ log₃ : List LogRecord} (h : LogsMore log₁ log₂)
    (h' : LogsMore log₂ log₃) : LogsMore log₁ log₃ := by
  obtain ⟨new, rfl, hnew⟩ := h
  obtain ⟨new', rfl, hnew'⟩ := h'
  exact ⟨new' ++ new, (List.append_assoc _ _ _).symm, List.forall_mem_append.mpr ⟨hnew', hnew⟩⟩

/-- The text of the warning has a first letter of its own. -/
theorem ne_skipping {text : String} (h : text.toList.head? ≠ some 's') (severity : Severity)
    (argument : Path) : (⟨severity, text⟩ : LogRecord) ≠ skipping argument := by
  intro heq
  have htext : text = s!"skipping repeated asset '{argument.display}'" :=
    congrArg LogRecord.text heq
  apply h
  rw [htext]
  simp [toString, String.toList_append]

theorem ne_skipping_of_logs {r : LogRecord} (h : SourceJob.Logs r) (argument : Path) :
    r ≠ skipping argument := by
  rcases h with herror | ⟨path, cause, rfl⟩
  · intro heq
    have hwarning : r.severity = .warning := congrArg LogRecord.severity heq
    rw [herror] at hwarning
    cases hwarning
  · have hfirst : (JobError.readSource path cause).message.toList.head? = some 'f' := by
      have hmessage : (JobError.readSource path cause).message =
        s!"failed to read '{path.display}': {cause.message}" := rfl
      rw [hmessage]
      simp only [toString, String.toList_append, List.head?_append]
      rfl
    exact ne_skipping (by rw [hfirst]; decide) _ argument

variable {console : Console} {dir : Path} {target : BuildTarget} {s s' : Session}

theorem Ran.logsMore {path : Path} {asset : Asset} {pace : Pace} {j : SourceJob}
    (h : Ran dir target s path asset pace j s') :
    LogsMore s.manager.world.log s'.manager.world.log := by
  obtain ⟨new, hlog, hnew⟩ := h.log
  exact ⟨new, hlog, fun r hr argument => ne_skipping_of_logs (hnew r hr) argument⟩

theorem Building.logsMore {path : Path} {answer : Except Failure Unit}
    (h : Building console dir target s path s' answer) :
    LogsMore s.manager.world.log s'.manager.world.log := by
  cases h with
  | invalid => exact .refl _
  | unsupported =>
    have hfirst : (Warning.unsupported target).message.toList.head? = some 'p' := by
      simp [Warning.message, toString, String.toList_append]
    refine ⟨[⟨.warning, (Warning.unsupported target).message⟩], rfl, ?_⟩
    intro r hr argument
    rw [List.mem_singleton.mp hr]
    exact ne_skipping (by rw [hfirst]; decide) _ argument
  | unprepared hp hs => exact hs.log ▸ .refl _
  | unannounced hp hs => exact hs.log ▸ .refl _
  | unreported hs => exact hs.logsMore
  | built hs => exact hs.toRan.logsMore

theorem BuildingAll.logsMore {paths : List Path} {answer : Except Failure Unit}
    (h : BuildingAll console dir target s paths s' answer) :
    LogsMore s.manager.world.log s'.manager.world.log := by
  induction h with
  | nil s => exact .refl _
  | stop here => exact here.logsMore
  | cons here rest ih => exact here.toRan.logsMore.trans ih

/-- **No argument is warned of once the first asset is built.** -/
theorem analyzeAssets_logsMore (console : Console) (config : Config) (dir : Path)
    (arguments : List Path) :
    LogsMore (opening config dir fs (distinct fs arguments).1).manager.world.log
      (analyzeAssets console config dir fs arguments).1.manager.world.log := by
  rcases hd : distinct fs arguments with ⟨d, found⟩
  cases found with
  | error e =>
    rw [analyzeAssets_of_refused hd]
    exact .refl _
  | ok _ =>
    obtain ⟨hbetween, -⟩ := opening_between config dir fs d
    rcases hb : buildAll console dir config.options.target (opening config dir fs d) d.paths with
      ⟨s, built⟩
    have hmore := (buildingAll_of_eq hbetween hb).logsMore
    cases built with
    | error e =>
      rw [analyzeAssets_of_error hd hb]
      exact hmore
    | ok _ =>
      rw [analyzeAssets_of_ok hd hb]
      exact hmore

/-- **Arguments are accepted as a whole or refused for the first one that is wrong.**

* They are accepted just if all of them are found and no two of them are different assets of one name.
  So their order does not matter for that.
* Then the assets are the absolute paths of the arguments, each where it comes first, and no two of them
  have the same name.  The other arguments are skipped, and make up the rest.
* If they are refused, this is for the first argument that leads nowhere or clashes with an asset before
  it, and for nothing that comes after.  A clash names the asset that was accepted and the new one.
* The log of an analysis begins with one warning for each argument that was skipped, in order, and has no
  other warning of that kind. -/
theorem distinct_checked (fs : FileSystem) (arguments : List Path) :
    let d := (distinct fs arguments).1
    let found := (distinct fs arguments).2
    (found = .ok () ↔ AreDistinct fs arguments) ∧
    (∀ arguments', arguments'.Perm arguments →
      ((distinct fs arguments').2 = .ok () ↔ found = .ok ())) ∧
    (found = .ok () →
      (∃ paths, arguments.mapM fs.canonicalize = .ok paths ∧ d.paths = paths.eraseDups) ∧
      d.paths.Nodup ∧ (d.paths.map nameOf).Nodup ∧
      d.skipped.Sublist arguments ∧ d.skipped.length = arguments.length - d.paths.length) ∧
    (∀ e, found = .error e ↔ ∃ before argument after, arguments = before ++ argument :: after ∧
      AreDistinct fs before ∧ Offends fs before argument e) ∧
    (∀ first second, found = .error (.sameName first second) → first ∈ d.paths ∧
      (Failure.sameName first second).messages =
        [s!"assets '{first.display}' and '{second.display}' would both be reported into the same file"]) ∧
    ∀ console config dir, ∃ more,
      (analyzeAssets console config dir fs arguments).1.manager.world.log.reverse =
        (d.skipped.map fun argument =>
          ⟨.warning, s!"skipping repeated asset '{argument.display}'"⟩) ++ more ∧
      ∀ r ∈ more, ∀ argument : Path,
        r ≠ ⟨.warning, s!"skipping repeated asset '{argument.display}'"⟩ := by
  intro d found
  have hrun : distinct fs arguments = (d, found) := rfl
  refine ⟨distinct_ok_iff, ?_, ?_, ?_, ?_, ?_⟩
  · intro arguments' hperm
    rw [distinct_ok_iff, AreDistinct.perm hperm]
    exact distinct_ok_iff.symm
  · intro hfound
    rw [hfound] at hrun
    obtain ⟨paths, hpaths, hdistinct, hnamed⟩ := distinct_eq_ok hrun
    obtain ⟨skipped, hskipped, hsub, hlength⟩ := Distinct.addAll_skips hrun
    obtain rfl : d.skipped = skipped := hskipped
    refine ⟨⟨paths, hpaths, hdistinct⟩, hnamed.nodup, hnamed, hsub, ?_⟩
    rw [List.length_nil, Nat.zero_add] at hlength
    omega
  · intro e
    constructor
    · intro hfound
      rw [hfound] at hrun
      obtain ⟨before, argument, after, hsplit, hbefore, hrefused⟩ :=
        Distinct.addAll_eq_error_iff.mp hrun
      have hok : distinct fs before = (d, .ok ()) := hbefore
      obtain ⟨-, -, -, hnamed⟩ := distinct_eq_ok hok
      refine ⟨before, argument, after, hsplit, distinct_ok_iff.mp (congrArg Prod.snd hok), ?_⟩
      exact (Distinct.add_eq_error_iff hnamed (mem_paths_iff hok)).mp hrefused
    · rintro ⟨before, argument, after, hsplit, hbefore, hoffends⟩
      have hok : distinct fs before = ((distinct fs before).1, .ok ()) :=
        Prod.ext rfl (distinct_ok_iff.mpr hbefore)
      obtain ⟨-, -, -, hnamed⟩ := distinct_eq_ok hok
      have hrefused := (Distinct.add_eq_error_iff hnamed (mem_paths_iff hok)).mpr hoffends
      exact congrArg Prod.snd
        (Distinct.addAll_eq_error_iff.mpr ⟨before, argument, after, hsplit, hok, hrefused⟩)
  · intro first second hfound
    rw [hfound] at hrun
    obtain ⟨before, argument, after, -, -, hrefused⟩ := Distinct.addAll_eq_error_iff.mp hrun
    refine ⟨?_, rfl⟩
    rcases Distinct.add_eq_error hrefused with ⟨cause, -, he⟩ | ⟨previous, path, hmem, -, -, -, he⟩
    · cases he
    · cases he
      exact hmem
  · intro console config dir
    obtain ⟨new, hlog, hnew⟩ := analyzeAssets_logsMore console config dir arguments
    refine ⟨new.reverse, ?_, ?_⟩
    · rw [hlog, List.reverse_append, opening_log]
      rfl
    · intro r hr
      exact hnew r (List.mem_reverse.mp hr)

end ShaderReport.Analyze
