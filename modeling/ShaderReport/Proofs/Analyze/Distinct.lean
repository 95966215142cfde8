import ShaderReport.Analyze

/-!
# Distinct assets

If all arguments are found and no two assets share a name, the distinct assets are the absolute paths
of the arguments, each where it comes first, and their names are distinct as well
(`distinct_eq_ok`).
-/

namespace ShaderReport.Analyze

theorem eraseDups_of_nodup {α : Type} [BEq α] [LawfulBEq α] {as : List α} (h : as.Nodup) :
    as.eraseDups = as := by
  induction as with
  | nil => rfl
  | cons a as ih =>
    obtain ⟨ha, has⟩ := List.nodup_cons.mp h
    have hfilter : as.filter (fun b => !b == a) = as := by
      apply List.filter_eq_self.mpr
      intro b hb
      have hne : b ≠ a := fun hba => ha (hba ▸ hb)
      simpa using hne
    rw [List.eraseDups_cons, hfilter, ih has]

theorem eraseDups_append_cons_of_mem {α : Type} [BEq α] [LawfulBEq α] {as bs : List α} {a : α}
    (h : a ∈ as) : (as ++ a :: bs).eraseDups = (as ++ bs).eraseDups := by
  rw [List.eraseDups_append, List.eraseDups_append]
  simp [List.removeAll, h]

theorem mapM_cons_ok {α β ε : Type} {f : α → Except ε β} {a : α} {as : List α} {b : β} {bs : List β}
    (ha : f a = .ok b) (has : as.mapM f = .ok bs) : (a :: as).mapM f = .ok (b :: bs) := by
  rw [List.mapM_cons, ha, has]
  rfl

theorem exists_mem_of_mem_mapM {α β ε : Type} {f : α → Except ε β} {as : List α} {bs : List β}
    (h : as.mapM f = .ok bs) {b : β} (hb : b ∈ bs) : ∃ a ∈ as, f a = .ok b := by
  induction as generalizing bs with
  | nil =>
    cases h
    cases hb
  | cons a as ih =>
    rw [List.mapM_cons] at h
    cases ha : f a with
    | error e =>
      rw [ha] at h
      cases h
    | ok b₁ =>
      cases has : as.mapM f with
      | error e =>
        rw [ha, has] at h
        cases h
      | ok bs₁ =>
        rw [ha, has] at h
        cases h
        rcases List.mem_cons.mp hb with rfl | hb
        · exact ⟨a, List.mem_cons_self, ha⟩
        · obtain ⟨a₁, hmem, ha₁⟩ := ih has hb
          exact ⟨a₁, List.mem_cons_of_mem a hmem, ha₁⟩

theorem exists_of_mem_mapM {α β ε : Type} {f : α → Except ε β} {as : List α} {bs : List β}
    (h : as.mapM f = .ok bs) {b : β} (hb : b ∈ bs) : ∃ a, f a = .ok b := by
  obtain ⟨a, -, ha⟩ := exists_mem_of_mem_mapM h hb
  exact ⟨a, ha⟩

theorem exists_mem_of_mapM {α β ε : Type} {f : α → Except ε β} {as : List α} {bs : List β}
    (h : as.mapM f = .ok bs) {a : α} (ha : a ∈ as) : ∃ b ∈ bs, f a = .ok b := by
  induction as generalizing bs with
  | nil => cases ha
  | cons a₁ as ih =>
    rw [List.mapM_cons] at h
    cases hb : f a₁ with
    | error e =>
      rw [hb] at h
      cases h
    | ok b₁ =>
      cases has : as.mapM f with
      | error e =>
        rw [hb, has] at h
        cases h
      | ok bs₁ =>
        rw [hb, has] at h
        cases h
        rcases List.mem_cons.mp ha with rfl | ha
        · exact ⟨b₁, List.mem_cons_self, hb⟩
        · obtain ⟨b, hmem, hfa⟩ := ih has ha
          exact ⟨b, List.mem_cons_of_mem b₁ hmem, hfa⟩

/-- The names of distinct assets are distinct. -/
def Distinct.Named (d : Distinct) : Prop :=
  (d.paths.map nameOf).Nodup

theorem Distinct.Named.nodup {d : Distinct} (h : d.Named) : d.paths.Nodup :=
  List.Pairwise.of_map nameOf (fun _ _ hne heq => hne (congrArg nameOf heq)) h

theorem Distinct.add_eq_ok {fs : FileSystem} {d d' : Distinct} {argument : Path} (hd : d.Named)
    (h : d.add fs argument = .ok d') :
    ∃ path, fs.canonicalize argument = .ok path ∧ d'.Named ∧
      ((path ∈ d.paths ∧ d'.paths = d.paths) ∨ d'.paths = d.paths ++ [path]) := by
  unfold Distinct.add at h
  cases hc : fs.canonicalize argument with
  | error cause => simp [hc] at h
  | ok path =>
    simp only [hc] at h
    refine ⟨path, rfl, ?_⟩
    cases hf : d.paths.find? (nameOf · = nameOf path) with
    | none =>
      simp only [hf] at h
      cases h
      refine ⟨?_, Or.inr rfl⟩
      have hnew : ∀ p ∈ d.paths, nameOf p ≠ nameOf path := by simpa using hf
      rw [Distinct.Named, List.map_append, List.nodup_append]
      refine ⟨hd, by simp, ?_⟩
      intro n hn m hm
      obtain ⟨p, hp, rfl⟩ := List.mem_map.mp hn
      rw [List.mem_singleton.mp hm]
      exact hnew p hp
    | some previous =>
      simp only [hf] at h
      by_cases heq : previous = path
      · rw [if_pos heq] at h
        cases h
        exact ⟨hd, Or.inl ⟨heq ▸ List.mem_of_find?_eq_some hf, rfl⟩⟩
      · rw [if_neg heq] at h
        cases h

theorem Distinct.addAll_eq_ok {fs : FileSystem} {d d' : Distinct} {arguments : List Path}
    (hd : d.Named) (h : Distinct.addAll fs d arguments = (d', .ok ())) :
    ∃ paths, arguments.mapM fs.canonicalize = .ok paths ∧ d'.paths = (d.paths ++ paths).eraseDups ∧
      d'.Named := by
  induction arguments generalizing d with
  | nil =>
    cases h
    exact ⟨[], rfl, by rw [List.append_nil, eraseDups_of_nodup hd.nodup], hd⟩
  | cons argument arguments ih =>
    rw [Distinct.addAll] at h
    cases ha : d.add fs argument with
    | error e => simp [ha] at h
    | ok d₁ =>
      simp only [ha] at h
      obtain ⟨path, hpath, hnamed, hadd⟩ := Distinct.add_eq_ok hd ha
      obtain ⟨paths, hpaths, hd', hnamed'⟩ := ih hnamed h
      refine ⟨path :: paths, mapM_cons_ok hpath hpaths, ?_, hnamed'⟩
      rcases hadd with ⟨hmem, hsame⟩ | hnew
      · rw [hd', hsame, eraseDups_append_cons_of_mem hmem]
      · rw [hd', hnew, List.append_assoc, List.singleton_append]

/-- **The distinct assets are the absolute paths of the arguments**, each where it comes first. -/
theorem distinct_eq_ok {fs : FileSystem} {d : Distinct} {arguments : List Path}
    (h : distinct fs arguments = (d, .ok ())) :
    ∃ paths, arguments.mapM fs.canonicalize = .ok paths ∧ d.paths = paths.eraseDups ∧ d.Named :=
  Distinct.addAll_eq_ok (d := ⟨[], []⟩) List.nodup_nil h

end ShaderReport.Analyze
