import ShaderReport.Config.Resolve
import ShaderReport.Proofs.Config.Merge

/-!
# Declared targets

A config file declares each target once: its declarations are in the order of the targets
(`ordered_insertPlatform`), so it does not matter from which end a target is looked up
(`lookup_eq_some_iff_mem`).  `sound_of_members` says this of every file, and that its output directory
is text; with both, `resolve_eq` tells the config of a run.
-/

namespace ShaderReport

/-! ### Lists of declarations -/

/-- Whether declarations are in the order of their targets, none of which is declared twice. -/
def Ordered (platforms : List (BuildTarget × PlatformConfig)) : Prop :=
  platforms.Pairwise fun a b => a.1.name < b.1.name

theorem Ordered.nodup {platforms : List (BuildTarget × PlatformConfig)} (h : Ordered platforms) :
    (platforms.map (·.1)).Nodup := by
  refine List.Pairwise.map _ ?_ h
  intro a b hlt heq
  rw [heq] at hlt
  exact String.lt_irrefl _ hlt

theorem mem_insertPlatform {target : BuildTarget} {p : PlatformConfig}
    {platforms : List (BuildTarget × PlatformConfig)} {x : BuildTarget × PlatformConfig}
    (h : x ∈ ConfigFile.insertPlatform target p platforms) : x = (target, p) ∨ x ∈ platforms := by
  induction platforms with
  | nil => exact Or.inl (List.mem_singleton.mp h)
  | cons y platforms ih =>
    obtain ⟨t, q⟩ := y
    rw [ConfigFile.insertPlatform] at h
    by_cases heq : t = target
    · rw [if_pos heq] at h
      exact (List.mem_cons.mp h).imp_right (List.mem_cons_of_mem _)
    rw [if_neg heq] at h
    by_cases hlt : target.name < t.name
    · rw [if_pos hlt] at h
      exact List.mem_cons.mp h
    rw [if_neg hlt] at h
    rcases List.mem_cons.mp h with hx | hx
    · exact Or.inr (hx ▸ List.mem_cons_self)
    · exact (ih hx).imp_right (List.mem_cons_of_mem _)

/-- **Declarations stay in order** when one is put among them. -/
theorem ordered_insertPlatform {platforms : List (BuildTarget × PlatformConfig)}
    (h : Ordered platforms) (target : BuildTarget) (p : PlatformConfig) :
    Ordered (ConfigFile.insertPlatform target p platforms) := by
  induction platforms with
  | nil => exact List.pairwise_singleton _ _
  | cons y platforms ih =>
    obtain ⟨t, q⟩ := y
    obtain ⟨hfirst, hrest⟩ := List.pairwise_cons.mp h
    rw [ConfigFile.insertPlatform]
    by_cases heq : t = target
    · subst heq
      rw [if_pos rfl]
      exact List.pairwise_cons.mpr ⟨hfirst, hrest⟩
    rw [if_neg heq]
    by_cases hlt : target.name < t.name
    · rw [if_pos hlt]
      refine List.pairwise_cons.mpr ⟨?_, h⟩
      intro x hx
      rcases List.mem_cons.mp hx with rfl | hx
      · exact hlt
      · exact String.lt_trans hlt (hfirst x hx)
    rw [if_neg hlt]
    have hgt : t.name < target.name := by
      apply String.not_le.mp
      intro hle
      exact heq (congrArg BuildTarget.mk (String.le_antisymm (String.not_lt.mp hlt) hle))
    refine List.pairwise_cons.mpr ⟨?_, ih hrest⟩
    intro x hx
    rcases mem_insertPlatform hx with rfl | hx
    · exact hgt
    · exact hfirst x hx

theorem ordered_foldl {platforms : List (BuildTarget × PlatformConfig)} (h : Ordered platforms)
    (declared : List (BuildTarget × PlatformConfig)) :
    Ordered (declared.foldl (fun all (t, p) => ConfigFile.insertPlatform t p all) platforms) := by
  induction declared generalizing platforms with
  | nil => exact h
  | cons d declared ih => exact ih (ordered_insertPlatform h d.1 d.2)

theorem lookup_eq_some_iff_mem {platforms : List (BuildTarget × PlatformConfig)}
    (h : (platforms.map (·.1)).Nodup) {target : BuildTarget} {p : PlatformConfig} :
    platforms.lookup target = some p ↔ (target, p) ∈ platforms := by
  rw [List.lookup_eq_some_iff]
  constructor
  · rintro ⟨before, after, rfl, -⟩
    simp
  · intro hmem
    obtain ⟨before, after, rfl⟩ := List.append_of_mem hmem
    refine ⟨before, after, rfl, ?_⟩
    intro q hq
    rw [List.map_append, List.nodup_append] at h
    have hne : q.1 ≠ target := h.2.2 _ (List.mem_map_of_mem hq) _ (by simp)
    simpa using hne.symm

/-! ### Config files -/

namespace ConfigFile

open Toml (Value)

/-- What holds of every config file: its output directory is text, and its declarations are in
order. -/
structure Sound (file : ConfigFile) : Prop where
  hasText : file.options.HasText
  ordered : Ordered file.platforms

/-- The pace that the members of a file set. -/
def paceSet (ms : List (String × Value)) : Pace :=
  ((ms.lookup "lines-per-tick").bind pace?).getD .standard

theorem ordered_of_platforms? {v : Value} {platforms : List (BuildTarget × PlatformConfig)}
    (h : platforms? v = some platforms) : Ordered platforms := by
  cases v with
  | table ms =>
    obtain ⟨declared, -, hfold⟩ := Option.bind_eq_some_iff.mp h
    cases hfold
    exact ordered_foldl List.Pairwise.nil declared
  | _ => cases h

theorem memberOr_eq_some {α : Type} {read : Value → Option α} {default x : α} {name : String}
    {ms : List (String × Value)} (h : memberOr read default name ms = some x) :
    (ms.lookup name = none ∧ x = default) ∨ ∃ v, ms.lookup name = some v ∧ read v = some x := by
  rw [memberOr] at h
  cases hlookup : ms.lookup name with
  | none =>
    rw [hlookup] at h
    exact Or.inl ⟨rfl, (Option.some.inj h).symm⟩
  | some v =>
    rw [hlookup] at h
    exact Or.inr ⟨v, rfl, h⟩

/-- **What a file holds is sound**, and its pace is the one that its members set. -/
theorem sound_of_members {ms : List (String × Value)} {file : ConfigFile}
    (h : ofMembers? ms = some file) : file.Sound ∧ file.options.pace = paceSet ms := by
  obtain ⟨target, -, h⟩ := Option.bind_eq_some_iff.mp h
  obtain ⟨outputDir, houtput, h⟩ := Option.bind_eq_some_iff.mp h
  obtain ⟨pace, hpace, h⟩ := Option.bind_eq_some_iff.mp h
  obtain ⟨platforms, hplatforms, h⟩ := Option.bind_eq_some_iff.mp h
  obtain ⟨-, hfile⟩ := Option.ite_none_right_eq_some.mp h
  obtain rfl := Option.some.inj hfile
  refine ⟨⟨?_, ?_⟩, ?_⟩
  · intro dir hdir
    obtain rfl : outputDir = some dir := hdir
    rcases memberOr_eq_some houtput with ⟨-, hnone⟩ | ⟨v, -, hread⟩
    · cases hnone
    · obtain ⟨text, -, htext⟩ := Option.map_eq_some_iff.mp hread
      exact ⟨text, (Option.some.inj htext).symm⟩
  · rcases memberOr_eq_some hplatforms with ⟨-, hnil⟩ | ⟨v, -, hread⟩
    · exact hnil ▸ List.Pairwise.nil
    · exact ordered_of_platforms? hread
  · rw [paceSet]
    rcases memberOr_eq_some hpace with ⟨hlookup, hdefault⟩ | ⟨v, hlookup, hread⟩
    · rw [hlookup]
      exact hdefault
    · rw [hlookup, Option.bind_some, hread]
      rfl

end ConfigFile

/-! ### The config of a run -/

namespace Config

/-- The text of the config file of a run, which is empty without a file. -/
def text (fs : FileSystem) (named : Option Path) : Except FileError String :=
  match named with
  | some path => fs.readText path
  | none => if fs.isFile defaultFile then fs.readText defaultFile else .ok ""

/-- The targets that a file declares, or the default one if it declares none. -/
def declared (file : ConfigFile) : List (BuildTarget × PlatformConfig) :=
  if file.platforms.isEmpty then [(.offline, .default)] else file.platforms

theorem parse?_empty : ConfigFile.parse? "" = some .default := by
  decide +kernel

theorem resolve_eq {fs : FileSystem} {named : Option Path} {s : String} {file : ConfigFile}
    (htext : text fs named = .ok s) (hfile : ConfigFile.parse? s = some file) (hs : file.Sound)
    {o : Options} (ho : o.HasText) :
    resolve fs named o = .ok ⟨file.options.override o, declared file⟩ := by
  have hload : ∀ path, fs.readText path = .ok s → load fs path = .ok file := by
    intro path hread
    rw [load, hread]
    simp only [hfile]
  have hof : ofFile file o = .ok ⟨file.options.override o, declared file⟩ := by
    rw [ofFile, Options.merge_eq hs.hasText ho]
    rfl
  rw [← hof]
  cases named with
  | some path =>
    rw [resolve]
    simp only [hload path htext]
    rfl
  | none =>
    rw [text] at htext
    simp only [resolve]
    by_cases hisFile : fs.isFile defaultFile = true
    · rw [if_pos hisFile] at htext ⊢
      rw [hload defaultFile htext]
      rfl
    · rw [if_neg hisFile] at htext ⊢
      cases htext
      rw [parse?_empty] at hfile
      cases hfile
      rfl

theorem ordered_declared {file : ConfigFile} (h : Ordered file.platforms) :
    Ordered (declared file) := by
  rw [declared]
  split
  · exact List.pairwise_singleton _ _
  · exact h

theorem paceOf_eq {c : Config} (h : Ordered c.platforms) {target : BuildTarget}
    {p : PlatformConfig} (hp : (target, p) ∈ c.platforms) :
    c.paceOf target = p.pace.getD c.options.pace := by
  rw [paceOf, (lookup_eq_some_iff_mem h.nodup).mpr hp]
  rfl

end Config

end ShaderReport
