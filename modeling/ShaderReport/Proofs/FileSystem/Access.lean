import ShaderReport.Proofs.FileSystem.Walk

/-!
# Reading and writing in a directory

`LeadsTo` says which directory a path leads to.  A name joined to the path stands in that directory:
`write_join` says what writing there changes, and `resolve_join` what is read there afterwards, in any
file system that keeps the directories and the links.

`canonicalize_eq_ok` says what the absolute path of something looks like, and `readText_path` that
reading such a path gives what its location holds.
-/

namespace ShaderReport.FileSystem

variable {fs fs' : FileSystem}

/-! ### Paths as walks -/

/-- Where a path starts. -/
def startOf (fs : FileSystem) (p : Path) : Location :=
  if p.isAbsolute then [] else fs.current

/-- Whether a path can be passed to the system at all. -/
structure Passes (aim : Aim) (p : Path) : Prop where
  no_zero : p.bytes.contains 0 = false
  ne_nil : p.bytes ≠ []
  short : aim ≠ .naming → p.bytes.length ≤ maxPath

theorem Passes.resolve_eq {aim : Aim} {p : Path} (h : Passes aim p) :
    fs.resolve aim p = fs.walk aim maxLinks (fs.startOf p) p.names p.endsWithSlash := by
  rw [resolve, if_neg (by simpa using h.no_zero), if_neg (by simpa using h.ne_nil), if_neg]
  · rfl
  · rintro ⟨ha, hlong⟩
    exact absurd (h.short ha) (Nat.not_le.mpr hlong)

theorem resolve_eq_ok_iff {aim : Aim} {p : Path} {d : Destination} :
    fs.resolve aim p = .ok d ↔
      Passes aim p ∧ Walks fs aim maxLinks (fs.startOf p) p.names p.endsWithSlash d := by
  rw [← walk_eq_ok_iff]
  constructor
  · intro h
    have hp : Passes aim p := by
      rw [resolve] at h
      split at h
      · cases h
      split at h
      · cases h
      split at h
      · cases h
      · next hz he hl =>
        refine ⟨by simpa using hz, by simpa using he, fun ha => ?_⟩
        exact Nat.not_lt.mp fun hlt => hl ⟨ha, hlt⟩
    exact ⟨hp, hp.resolve_eq ▸ h⟩
  · rintro ⟨hp, h⟩
    exact hp.resolve_eq.trans h

theorem read_eq_ok_iff {p : Path} {content : Bytes} :
    fs.read p = .ok content ↔ ∃ l, fs.resolve .target p = .ok (.found l (.file content) false) := by
  cases hr : fs.resolve .target p with
  | error e => simp [read, hr, bind, Except.bind]
  | ok d =>
    cases d with
    | free l => simp [read, hr, bind, Except.bind]
    | found l e b => cases e <;> cases b <;> simp [read, hr, bind, Except.bind]

theorem readText_eq_ok_iff {p : Path} {text : String} :
    fs.readText p = .ok text ↔ fs.read p = .ok (Utf8.encode text) := by
  cases hr : fs.read p with
  | error e => simp [readText, hr, bind, Except.bind]
  | ok content =>
    cases hd : Utf8.decode? content with
    | none =>
      simp only [readText, hr, hd, bind, Except.bind, Except.ok.injEq, reduceCtorEq, false_iff]
      rintro rfl
      simp at hd
    | some t =>
      simp only [readText, hr, hd, bind, Except.bind, Except.ok.injEq]
      rw [Utf8.decode?_eq_some_iff.mp hd]
      exact ⟨fun h => h ▸ rfl, fun h => Utf8.encode_injective h⟩

/-! ### Absolute paths without links -/

/-- **The absolute path of something is that of its location**: a name in a place, or the root. -/
theorem canonicalize_eq_ok {p path : Path} (hc : IsPlace fs fs.current)
    (h : fs.canonicalize p = .ok path) :
    path = Location.path [] ∨ ∃ m n e, path = Location.path (m ++ [n]) ∧ IsPlace fs m ∧ IsName n ∧
      fs.get? (m ++ [n]) = some e ∧ ∀ t, e ≠ .link t := by
  cases hres : fs.resolve .naming p with
  | error e => simp [canonicalize, hres, bind, Except.bind] at h
  | ok d =>
    have hwalk := (resolve_eq_ok_iff.mp hres).2
    have hstart : IsPlace fs (fs.startOf p) := isPlace_start hc p
    cases d with
    | free l => simp [canonicalize, hres, bind, Except.bind] at h
    | found l e b =>
      have hpath : l.path = path := by
        cases e <;> cases b <;> simp_all [canonicalize, bind, Except.bind]
      have hlink : ∀ t, e ≠ .link t := by
        rintro t rfl
        exact Walks.not_link (by decide) hwalk
      rcases hwalk.ends hstart (areNames_path p) with ⟨l', b', hd, hl⟩ | ⟨m, n, hm, hn, hd⟩
      · cases hd
        cases hl with
        | root => exact Or.inl hpath.symm
        | child hm hn hg => exact Or.inr ⟨_, _, _, hpath.symm, hm, hn, hg, hlink⟩
      · rcases hd with ⟨hd, -⟩ | ⟨e', b', hd, hg⟩
        · cases hd
        · cases hd
          exact Or.inr ⟨m, n, e, hpath.symm, hm, hn, hg, hlink⟩

/-- **What an absolute path without links reads is what its location holds.** -/
theorem readText_path {m : Location} {n : Bytes} {e : Entry} {text : String} (hn : IsName n)
    (hm : IsPlace fs m) (hg : fs.get? (m ++ [n]) = some e) (he : ∀ t, e ≠ .link t) :
    fs.readText (Location.path (m ++ [n])) = .ok text ↔
      e = .file (Utf8.encode text) ∧ Passes .target (Location.path (m ++ [n])) ∧
        InReach .target [] m ∧ isOutOfReach .target (m ++ [n]) = false := by
  have hnames := hm.names_concat hn
  have hwalk : ∀ d, Walks fs .target maxLinks [] (m ++ [n]) false d ↔
      InReach .target [] m ∧ isOutOfReach .target (m ++ [n]) = false ∧
        d = .found (m ++ [n]) e false := by
    intro d
    rw [walks_down (by exact hm) (by simp)]
    exact and_congr_right fun _ => walks_name hn hg he
  rw [readText_eq_ok_iff, read_eq_ok_iff]
  simp only [resolve_eq_ok_iff, startOf, Location.isAbsolute_path, Location.names_path hnames,
    Location.endsWithSlash_path hnames (by simp : m ++ [n] ≠ []), if_true, hwalk,
    Destination.found.injEq]
  constructor
  · rintro ⟨l, hpass, hdown, hreach, -, hfile, -⟩
    exact ⟨hfile.symm, hpass, hdown, hreach⟩
  · rintro ⟨hfile, hpass, hdown, hreach⟩
    exact ⟨_, hpass, hdown, hreach, rfl, hfile.symm, trivial⟩

/-! ### Names in a directory -/

/-- Whether names that are joined to a path stand in the given directory.  They do so for the empty
path too, in the current directory. -/
def LeadsTo (fs : FileSystem) (p : Path) (l : Location) : Prop :=
  ∃ b, Walks fs .target maxLinks (fs.startOf p) p.names p.endsWithSlash (.found l .directory b)

theorem startOf_eq (hk : KeepsWays fs fs') (p : Path) : fs'.startOf p = fs.startOf p := by
  rw [startOf, startOf, hk.current]

theorem LeadsTo.mono {p : Path} {l : Location} (hk : KeepsWays fs fs') (h : fs.LeadsTo p l) :
    fs'.LeadsTo p l := by
  obtain ⟨b, hb⟩ := h
  refine ⟨b, ?_⟩
  rw [startOf_eq hk]
  exact hb.mono hk

theorem LeadsTo.unique {p : Path} {l m : Location} (hl : fs.LeadsTo p l) (hm : fs.LeadsTo p m) :
    l = m := by
  obtain ⟨b, hb⟩ := hl
  obtain ⟨c, hc⟩ := hm
  have := (walk_of_walks hb).symm.trans (walk_of_walks hc)
  cases this
  rfl

theorem put_file_keepsWays {l : Location} {content : Bytes}
    (h : fs.get? l = none ∨ ∃ c, fs.get? l = some (.file c)) :
    KeepsWays fs (fs.put l (.file content)) := by
  have hne : ∀ {m e}, fs.get? m = some e → (e = .directory ∨ ∃ t, e = .link t) → m ≠ l := by
    rintro m e hm he rfl
    rcases h with h | ⟨c, h⟩ <;> rw [h] at hm <;> cases hm
    rcases he with he | ⟨t, he⟩ <;> cases he
  refine ⟨rfl, ?_, ?_⟩
  · intro m hd
    rw [get?_put_ne (hne hd (Or.inl rfl))]
    exact hd
  · intro m t hl
    rw [get?_put_ne (hne hl (Or.inr ⟨_, rfl⟩))]
    exact hl

theorem ne_nil_of_get? (fs : FileSystem) {l : Location} (h : fs.get? l ≠ some .directory) : l ≠ [] := by
  rintro rfl
  exact h rfl

theorem write_eq_ok_iff {p : Path} {content : Bytes} :
    fs.write p content = .ok fs' ↔
      ∃ l, fs.placeOfFile p = .ok l ∧ fs' = fs.put l (.file content) := by
  rw [write]
  cases fs.placeOfFile p with
  | error e => simp [Except.map]
  | ok l => simp [Except.map, eq_comm]

theorem placeOfFile_eq_ok {p : Path} {l : Location} (h : fs.placeOfFile p = .ok l) :
    ∃ d, fs.resolve .writing p = .ok d ∧
      (d = .free l ∨ ∃ content b, d = .found l (.file content) b) := by
  cases hres : fs.resolve .writing p with
  | error e => simp [placeOfFile, hres, bind, Except.bind] at h
  | ok d =>
    refine ⟨d, rfl, ?_⟩
    simp only [placeOfFile, hres, bind, Except.bind] at h
    split at h <;> cases h <;> simp

theorem Passes.of_writing {p : Path} (h : Passes .writing p) : Passes .target p :=
  ⟨h.no_zero, h.ne_nil, fun _ => h.short (by decide)⟩

/-- **Writing puts one file**, where there was nothing or a file, and the path leads there from then
on. -/
theorem write_eq_put {p : Path} {content : Bytes} (h : fs.write p content = .ok fs') :
    ∃ l, fs' = fs.put l (.file content) ∧
      (fs.get? l = none ∨ ∃ c, fs.get? l = some (.file c)) ∧
      fs'.resolve .target p = .ok (.found l (.file content) false) := by
  obtain ⟨l, hplace, rfl⟩ := write_eq_ok_iff.mp h
  obtain ⟨d, hres, hd⟩ := placeOfFile_eq_ok hplace
  obtain ⟨hpass, hwalk⟩ := resolve_eq_ok_iff.mp hres
  have hold : fs.get? l = none ∨ ∃ c, fs.get? l = some (.file c) := by
    rcases hd with hd | ⟨c, b', hd⟩
    · exact Or.inl (hwalk.get?_end.1 hd)
    · exact Or.inr ⟨c, hwalk.get?_end.2 hd (by simp)⟩
  have hne : l ≠ [] := ne_nil_of_get? fs (by rcases hold with hold | ⟨c, hold⟩ <;> simp [hold])
  have hk : KeepsWays fs (fs.put l (.file content)) := put_file_keepsWays hold
  obtain ⟨b', harrives, hb⟩ :=
    hwalk.arrives hk (by decide) hd (get?_put_self hne fs (.file content)) (by simp)
  obtain rfl := hb rfl
  refine ⟨l, rfl, hold, resolve_eq_ok_iff.mpr ⟨hpass.of_writing, ?_⟩⟩
  rwa [startOf_eq hk]

/-- **What is written to a path is read there**, and the directories and the links are kept. -/
theorem write_eq_ok {p : Path} {content : Bytes} (h : fs.write p content = .ok fs') :
    KeepsWays fs fs' ∧ fs'.read p = .ok content := by
  obtain ⟨l, rfl, hold, hres⟩ := write_eq_put h
  exact ⟨put_file_keepsWays hold, read_eq_ok_iff.mpr ⟨l, hres⟩⟩

section Join

variable {dir : Path} {n : Bytes} (hn : IsName n)

include hn

theorem startOf_join : fs.startOf (dir.join ⟨n⟩) = fs.startOf dir := by
  rw [startOf, startOf, Path.isAbsolute_join hn.ne_nil hn.no_slash]

theorem Passes.of_join {aim : Aim} (h : Passes aim (dir.join ⟨n⟩)) (ha : aim ≠ .naming) :
    dir.bytes.contains 0 = false ∧ dir.bytes.length ≤ maxPath := by
  have hp := Path.prefix_join hn.ne_nil hn.no_slash dir
  refine ⟨?_, Nat.le_trans hp.length_le (h.short ha)⟩
  have hz : (0 : UInt8) ∉ (dir.join ⟨n⟩).bytes := by simpa using h.no_zero
  simpa using fun hmem => hz (hp.subset hmem)

/-- **Writing to a name in a directory puts a file there**, unless there is a link. -/
theorem write_join {content : Bytes} (h : fs.write (dir.join ⟨n⟩) content = .ok fs')
    (hlink : Passes .target (dir.join ⟨n⟩) → ∀ l, fs.LeadsTo dir l →
      ∀ t, fs.get? (l ++ [n]) ≠ some (.link t)) :
    ∃ l, fs.LeadsTo dir l ∧ Passes .target (dir.join ⟨n⟩) ∧
      isOutOfReach .target (l ++ [n]) = false ∧
      (fs.get? (l ++ [n]) = none ∨ ∃ c, fs.get? (l ++ [n]) = some (.file c)) ∧
      fs' = fs.put (l ++ [n]) (.file content) := by
  obtain ⟨place, hplace, rfl⟩ := write_eq_ok_iff.mp h
  obtain ⟨d, hres, hend⟩ := placeOfFile_eq_ok hplace
  obtain ⟨hpass, hwalk⟩ := resolve_eq_ok_iff.mp hres
  rw [startOf_join hn, Path.names_join hn.ne_nil hn.no_slash] at hwalk
  obtain ⟨l, b', links', hl, hd⟩ := hwalk.split (by decide) dir.endsWithSlash
  have hleads : fs.LeadsTo dir l := ⟨b', hl⟩
  refine ⟨l, hleads, hpass.of_writing, ?_⟩
  cases hd with
  | here h => exact absurd rfl hn.ne_here
  | up h => exact absurd rfl hn.ne_up
  | down hen hg h =>
    cases h
    simp at hend
  | free hen hg =>
    obtain rfl : l ++ [n] = place := by simpa using hend
    exact ⟨hen.in_reach, Or.inl hg, rfl⟩
  | file hen hg =>
    obtain rfl : l ++ [n] = place := by simpa using hend
    exact ⟨hen.in_reach, Or.inr ⟨_, hg⟩, rfl⟩
  | link hen hg ha => cases ha
  | follow hen hg ha h =>
    -- A link in the last place would let the file be written somewhere else.
    exact absurd hg (hlink hpass.of_writing l hleads _)

/-- **Reading a name in a directory gives the file there.** -/
theorem resolve_join {l : Location} {content : Bytes} (hl : fs.LeadsTo dir l)
    (hpass : Passes .target (dir.join ⟨n⟩)) (hreach : isOutOfReach .target (l ++ [n]) = false)
    (hg : fs.get? (l ++ [n]) = some (.file content)) :
    fs.resolve .target (dir.join ⟨n⟩) = .ok (.found (l ++ [n]) (.file content) false) := by
  obtain ⟨b, hb⟩ := hl
  obtain ⟨links', hgo⟩ := hb.concat
  refine resolve_eq_ok_iff.mpr ⟨hpass, ?_⟩
  rw [startOf_join hn, Path.names_join hn.ne_nil hn.no_slash,
    Path.endsWithSlash_join hn.ne_nil hn.no_slash]
  exact hgo (by decide) ((walks_name hn hg (by simp)).mpr ⟨hreach, rfl⟩)

end Join

end ShaderReport.FileSystem
