import ShaderReport.OutputDir
import ShaderReport.Proofs.FileSystem.Access
import ShaderReport.Proofs.Path.Ancestors

/-!
# Preparing directories

A directory is created after its parent, where that is missing (`createDirs_eq`).  Whatever the path is
and however it ends, preparing an output directory puts directories into free places and does nothing else
(`prepareOutputDir_adds`).  Where the path leads to a directory already, it does nothing at all
(`prepareOutputDir_of_isDir`), and that is so once it was prepared (`prepareOutputDir_again`).
`prepareOutputDir_establishes` is all of this in one.
-/

namespace ShaderReport

namespace FileSystem

/-- Whether all that changed is that directories stand in places that were free. -/
structure AddsDirectories (fs fs' : FileSystem) : Prop where
  current : fs'.current = fs.current
  get? : ∀ l, fs'.get? l = fs.get? l ∨ (fs.get? l = none ∧ fs'.get? l = some .directory)

namespace AddsDirectories

variable {fs fs' fs'' : FileSystem}

theorem refl (fs : FileSystem) : AddsDirectories fs fs :=
  ⟨rfl, fun _ => Or.inl rfl⟩

theorem trans (h : AddsDirectories fs fs') (h' : AddsDirectories fs' fs'') :
    AddsDirectories fs fs'' := by
  refine ⟨h'.current.trans h.current, ?_⟩
  intro l
  rcases h'.get? l with hl' | ⟨hnone, hdir⟩
  · rw [hl']
    exact h.get? l
  · rcases h.get? l with hl | ⟨-, hd⟩
    · exact Or.inr ⟨hl ▸ hnone, hdir⟩
    · rw [hnone] at hd
      cases hd

theorem keeps (h : AddsDirectories fs fs') {l : Location} {e : Entry} (he : fs.get? l = some e) :
    fs'.get? l = some e := by
  rcases h.get? l with hl | ⟨hnone, -⟩
  · exact hl.trans he
  · rw [he] at hnone
    cases hnone

theorem keepsWays (h : AddsDirectories fs fs') : KeepsWays fs fs' :=
  ⟨h.current, h.keeps, h.keeps⟩

theorem put {l : Location} (h : fs.get? l = none) : AddsDirectories fs (fs.put l .directory) := by
  refine ⟨rfl, ?_⟩
  intro m
  by_cases hm : m = l
  · subst hm
    exact Or.inr ⟨h, get?_put_self (ne_nil_of_get? fs (by simp [h])) fs _⟩
  · exact Or.inl (get?_put_ne hm fs _)

end AddsDirectories

variable {fs fs' : FileSystem}

theorem createDir_eq_ok {p : Path} (h : fs.createDir p = .ok fs') :
    ∃ l, fs.resolve .entry p = .ok (.free l) ∧ fs' = fs.put l .directory := by
  cases hres : fs.resolve .entry p with
  | error e => simp [createDir, hres, bind, Except.bind] at h
  | ok d =>
    cases d with
    | found l e b => simp [createDir, hres, bind, Except.bind] at h
    | free l =>
      simp only [createDir, hres, bind, Except.bind, Except.ok.injEq] at h
      exact ⟨l, rfl, h.symm⟩

theorem createDir_adds {p : Path} (h : fs.createDir p = .ok fs') : AddsDirectories fs fs' := by
  obtain ⟨l, hres, rfl⟩ := createDir_eq_ok h
  exact .put ((resolve_eq_ok_iff.mp hres).2.get?_end.1 rfl)

theorem isDir_eq_true_iff {p : Path} :
    fs.isDir p = true ↔ ∃ l b, fs.resolve .target p = .ok (.found l .directory b) := by
  cases hr : fs.resolve .target p with
  | error e => simp [isDir, hr]
  | ok d =>
    cases d with
    | free l => simp [isDir, hr]
    | found l e b => cases e <;> simp [isDir, hr]

theorem isDir_mono (hk : KeepsWays fs fs') {p : Path} (h : fs.isDir p = true) :
    fs'.isDir p = true := by
  obtain ⟨l, b, hr⟩ := isDir_eq_true_iff.mp h
  obtain ⟨hpass, hwalk⟩ := resolve_eq_ok_iff.mp hr
  refine isDir_eq_true_iff.mpr ⟨l, b, resolve_eq_ok_iff.mpr ⟨hpass, ?_⟩⟩
  rw [startOf_eq hk]
  exact hwalk.mono hk

theorem createDir_isDir {p : Path} (h : fs.createDir p = .ok fs') : fs'.isDir p = true := by
  have hk := (createDir_adds h).keepsWays
  obtain ⟨l, hres, rfl⟩ := createDir_eq_ok h
  obtain ⟨hpass, hwalk⟩ := resolve_eq_ok_iff.mp hres
  have hne : l ≠ [] := ne_nil_of_get? fs (by simp [hwalk.get?_end.1 rfl])
  obtain ⟨b', harrives, -⟩ :=
    hwalk.arrives hk (by decide) (Or.inl rfl) (get?_put_self hne fs .directory) (by simp)
  refine isDir_eq_true_iff.mpr ⟨l, b', resolve_eq_ok_iff.mpr ⟨?_, ?_⟩⟩
  · exact ⟨hpass.no_zero, hpass.ne_nil, fun _ => hpass.short (by decide)⟩
  · rwa [startOf_eq hk]

/-- **A directory is created after its parent, where that is missing.**  A path without names is there
already, and so is a directory that is found in its place. -/
theorem createDirs_eq (fs : FileSystem) (p : Path) :
    fs.createDirs p =
      if p.bytes.isEmpty then (fs, .ok ())
      else match fs.createDir p with
        | .ok fs => (fs, .ok ())
        | .error .notFound =>
          match p.parent.elim (fs, .error .noParent) fs.createDirs with
          | (fs, .error e) => (fs, .error e)
          | (fs, .ok ()) =>
            match fs.createDir p with
            | .ok fs => (fs, .ok ())
            | .error e => if fs.isDir p then (fs, .ok ()) else (fs, .error e)
        | .error e => if fs.isDir p then (fs, .ok ()) else (fs, .error e) := by
  have habove : fs.createFirst ((p.parent.map Path.ancestors).getD []) =
      p.parent.elim (fs, .error .noParent) fs.createDirs := by
    cases p.parent <;> rfl
  have hfirst : fs.createDirs p = fs.createFirst (p :: (p.parent.map Path.ancestors).getD []) := by
    rw [createDirs, Path.ancestors_eq]
  rw [hfirst, ← habove]
  rfl

theorem createFirst_isDir {p : Path} {above : List Path}
    (h : fs.createFirst (p :: above) = (fs', .ok ())) : p.bytes = [] ∨ fs'.isDir p = true := by
  rw [createFirst] at h
  by_cases hp : p.bytes.isEmpty = true
  · exact Or.inl (List.isEmpty_iff.mp hp)
  rw [if_neg hp] at h
  refine Or.inr ?_
  split at h
  · next hc =>
    cases h
    exact createDir_isDir hc
  · split at h
    · cases h
    · split at h
      · next hc =>
        cases h
        exact createDir_isDir hc
      · split at h
        · next hdir =>
          cases h
          exact hdir
        · cases h
  · split at h
    · next hdir =>
      cases h
      exact hdir
    · cases h

theorem createFirst_adds (fs : FileSystem) (ps : List Path) :
    AddsDirectories fs (fs.createFirst ps).1 := by
  induction ps generalizing fs with
  | nil => exact .refl fs
  | cons p above ih =>
    rw [createFirst]
    by_cases hp : p.bytes.isEmpty = true
    · rw [if_pos hp]
      exact .refl fs
    rw [if_neg hp]
    split
    · next fs' hc => exact createDir_adds hc
    · have hi := ih fs
      split
      · next fs' e hf =>
        rw [hf] at hi
        exact hi
      · next fs' hf =>
        rw [hf] at hi
        split
        · next fs'' hc => exact hi.trans (createDir_adds hc)
        · split <;> exact hi
    · split <;> exact .refl fs

end FileSystem

open FileSystem

/-- **Preparing an output directory adds directories in free places.** -/
theorem prepareOutputDir_adds (fs : FileSystem) (dir : Path) :
    AddsDirectories fs (prepareOutputDir fs dir).1 := by
  rw [prepareOutputDir]
  split
  · exact .refl fs
  · exact createFirst_adds fs _

/-- **An output directory that is there is left alone.**  The empty path always is. -/
theorem prepareOutputDir_of_isDir {fs : FileSystem} {dir : Path}
    (h : dir.bytes = [] ∨ fs.isDir dir = true) : prepareOutputDir fs dir = (fs, .ok ()) := by
  rcases h with hempty | hdir
  · obtain ⟨bytes⟩ := dir
    cases hempty
    rfl
  · rw [prepareOutputDir, if_pos hdir]

theorem prepareOutputDir_of_leadsTo {fs : FileSystem} {dir : Path} {l : Location}
    (h : fs.LeadsTo dir l) (hz : dir.bytes.contains 0 = false)
    (hlen : dir.bytes.length ≤ maxPath) : prepareOutputDir fs dir = (fs, .ok ()) := by
  apply prepareOutputDir_of_isDir
  by_cases he : dir.bytes = []
  · exact Or.inl he
  · obtain ⟨b, hb⟩ := h
    exact Or.inr (isDir_eq_true_iff.mpr
      ⟨l, b, resolve_eq_ok_iff.mpr ⟨⟨hz, he, fun _ => hlen⟩, hb⟩⟩)

theorem isDir_of_prepareOutputDir {fs : FileSystem} {dir : Path}
    (h : (prepareOutputDir fs dir).2 = .ok ()) :
    dir.bytes = [] ∨ (prepareOutputDir fs dir).1.isDir dir = true := by
  rw [prepareOutputDir] at h ⊢
  by_cases hdir : fs.isDir dir = true
  · rw [if_pos hdir]
    exact Or.inr hdir
  · rw [if_neg hdir] at h ⊢
    -- The list of a path and the ones above it starts with the path.
    exact createFirst_isDir (Prod.ext rfl h)

/-- **An output directory that was prepared once is left alone from then on**, as long as the
directories and the links are kept. -/
theorem prepareOutputDir_again {fs fs' : FileSystem} {dir : Path}
    (h : (prepareOutputDir fs dir).2 = .ok ()) (hk : KeepsWays (prepareOutputDir fs dir).1 fs') :
    prepareOutputDir fs' dir = (fs', .ok ()) :=
  prepareOutputDir_of_isDir ((isDir_of_prepareOutputDir h).imp_right (isDir_mono hk))

/-- **Preparing an output directory establishes it and damages nothing.**  Whatever comes of it, all entries
stay as they are, and only directories are added, in free places.  Where it succeeds for a path that is not
empty, the path leads to a directory from then on, and preparing that changes nothing any more, as long as
the directories and the links are kept.  Where the path leads to a directory beforehand, nothing changes at
all. -/
theorem prepareOutputDir_establishes (fs : FileSystem) (dir : Path) :
    let fs' := (prepareOutputDir fs dir).1
    (fs'.current = fs.current ∧ (∀ l e, fs.get? l = some e → fs'.get? l = some e) ∧
      ∀ l e, fs.get? l = none → fs'.get? l = some e → e = .directory) ∧
    (dir.bytes ≠ [] → (prepareOutputDir fs dir).2 = .ok () →
      ∀ later, KeepsWays fs' later → later.isDir dir = true ∧
        prepareOutputDir later dir = (later, .ok ())) ∧
    (fs.isDir dir = true → prepareOutputDir fs dir = (fs, .ok ())) := by
  intro fs'
  have hadds : AddsDirectories fs fs' := prepareOutputDir_adds fs dir
  refine ⟨⟨hadds.current, ?_, ?_⟩, ?_, ?_⟩
  · intro l e he
    exact hadds.keeps he
  · intro l e hnone he
    rcases hadds.get? l with hl | ⟨-, hdir⟩
    · rw [hl, hnone] at he
      cases he
    · rw [hdir] at he
      exact (Option.some.inj he).symm
  · intro hne hok later hk
    have hdir := (isDir_of_prepareOutputDir hok).resolve_left hne
    exact ⟨isDir_mono hk hdir, prepareOutputDir_again hok hk⟩
  · intro hdir
    exact prepareOutputDir_of_isDir (Or.inr hdir)

/-! ### Directories behind a link -/

/-- The root, which holds a directory. -/
def attic : FileSystem :=
  ⟨[([Utf8.encode "d"], .directory)], []⟩

/-- The same with a link to this directory. -/
def linkedAttic : FileSystem :=
  attic.put [Utf8.encode "s"] (.link (.ofString "d"))

/-- Behind the link two directories are missing. -/
theorem resolve_linkedAttic {aim : Aim} (ha : aim = .target ∨ aim = .entry) :
    linkedAttic.resolve aim (.ofString "s/a/b") = .error .notFound := by
  have hp : Passes aim (.ofString "s/a/b") := ⟨by decide, by decide, fun _ => by decide⟩
  have hlink : linkedAttic.get? [Utf8.encode "s"] = some (.link (.ofString "d")) := rfl
  have hs : Enters aim [] (Utf8.encode "s") [Utf8.encode "a", Utf8.encode "b"] false := by
    rcases ha with rfl | rfl <;> exact ⟨by decide, by decide, by decide, by decide⟩
  have hd : Enters aim [] (Utf8.encode "d") [Utf8.encode "a", Utf8.encode "b"] false := by
    rcases ha with rfl | rfl <;> exact ⟨by decide, by decide, by decide, by decide⟩
  have hm : Enters aim [Utf8.encode "d"] (Utf8.encode "a") [Utf8.encode "b"] false := by
    rcases ha with rfl | rfl <;> exact ⟨by decide, by decide, by decide, by decide⟩
  rw [hp.resolve_eq]
  exact (hs.walk_of_link hlink (by simp) 39).trans
    ((hd.walk_of_directory rfl 39).trans (hm.walk_of_none rfl 39))

/-- They are created where the link leads to, one after the other. -/
theorem createDir_linkedAttic :
    let fs := linkedAttic.put [Utf8.encode "d", Utf8.encode "a"] .directory
    linkedAttic.createDir (.ofString "s/a") = .ok fs ∧ fs.createDir (.ofString "s/a/b") =
      .ok (fs.put [Utf8.encode "d", Utf8.encode "a", Utf8.encode "b"] .directory) := by
  intro fs
  have hfirst : linkedAttic.resolve .entry (.ofString "s/a") =
      .ok (.free [Utf8.encode "d", Utf8.encode "a"]) := by
    refine resolve_eq_ok_iff.mpr ⟨⟨by decide, by decide, fun _ => by decide⟩, ?_⟩
    refine .follow ⟨by decide, by decide, by decide, by decide⟩ rfl (by decide) ?_
    refine .down ⟨by decide, by decide, by decide, by decide⟩ rfl ?_
    exact .free ⟨by decide, by decide, by decide, by decide⟩ rfl
  have hsecond : fs.resolve .entry (.ofString "s/a/b") =
      .ok (.free [Utf8.encode "d", Utf8.encode "a", Utf8.encode "b"]) := by
    refine resolve_eq_ok_iff.mpr ⟨⟨by decide, by decide, fun _ => by decide⟩, ?_⟩
    refine .follow ⟨by decide, by decide, by decide, by decide⟩ rfl (by decide) ?_
    refine .down ⟨by decide, by decide, by decide, by decide⟩ rfl ?_
    refine .down ⟨by decide, by decide, by decide, by decide⟩ rfl ?_
    exact .free ⟨by decide, by decide, by decide, by decide⟩ rfl
  rw [createDir, hfirst, createDir, hsecond]
  exact ⟨rfl, rfl⟩

theorem prepareOutputDir_linkedAttic :
    ∃ fs', prepareOutputDir linkedAttic (.ofString "s/a/b") = (fs', .ok ()) ∧
      fs'.get? [Utf8.encode "d", Utf8.encode "a", Utf8.encode "b"] = some .directory := by
  obtain ⟨hfirst, hsecond⟩ := createDir_linkedAttic
  have hmissing : linkedAttic.isDir (.ofString "s/a/b") = false := by
    rw [isDir, resolve_linkedAttic (.inl rfl)]
  have hfails : linkedAttic.createDir (.ofString "s/a/b") = .error .notFound := by
    rw [createDir, resolve_linkedAttic (.inr rfl)]
    rfl
  have hparent : linkedAttic.createDirs (.ofString "s/a") =
      (linkedAttic.put [Utf8.encode "d", Utf8.encode "a"] .directory, .ok ()) := by
    rw [createDirs_eq, if_neg (by decide), hfirst]
  have habove : (Path.ofString "s/a/b").parent = some (.ofString "s/a") := by
    decide +kernel
  have hprepare : prepareOutputDir linkedAttic (.ofString "s/a/b") =
      ((linkedAttic.put [Utf8.encode "d", Utf8.encode "a"] .directory).put
        [Utf8.encode "d", Utf8.encode "a", Utf8.encode "b"] .directory, .ok ()) := by
    rw [prepareOutputDir, hmissing, if_neg (by decide), createDirs_eq, if_neg (by decide), hfails, habove]
    simp only [Option.elim_some, hparent, hsecond]
  exact ⟨_, hprepare, get?_put_self (by simp) _ _⟩

/-- **The link stays**, and preparing the directory again changes nothing. -/
theorem prepareOutputDir_establishes_attic :
    attic.createLink (.ofString "s") (.ofString "d") = .ok linkedAttic ∧
      ∃ fs', prepareOutputDir linkedAttic (.ofString "s/a/b") = (fs', .ok ()) ∧
        fs'.get? [Utf8.encode "d", Utf8.encode "a", Utf8.encode "b"] = some .directory ∧
        fs'.get? [Utf8.encode "s"] = some (.link (.ofString "d")) ∧
        fs'.isDir (.ofString "s/a/b") = true ∧
        prepareOutputDir fs' (.ofString "s/a/b") = (fs', .ok ()) := by
  have hfree : attic.resolve .entry (.ofString "s") = .ok (.free [Utf8.encode "s"]) :=
    resolve_eq_ok_iff.mpr ⟨⟨by decide, by decide, fun _ => by decide⟩,
      .free ⟨by decide, by decide, by decide, by decide⟩ rfl⟩
  have hlink : attic.createLink (.ofString "s") (.ofString "d") = .ok linkedAttic := by
    rw [createLink, hfree]
    rfl
  obtain ⟨fs', hok, hlast⟩ := prepareOutputDir_linkedAttic
  obtain ⟨⟨-, hkept, -⟩, hready, -⟩ := prepareOutputDir_establishes linkedAttic (.ofString "s/a/b")
  rw [hok] at hkept hready
  obtain ⟨hdir, hagain⟩ := hready (by decide) rfl fs' (.refl fs')
  exact ⟨hlink, fs', hok, hlast, hkept _ _ rfl, hdir, hagain⟩

end ShaderReport
