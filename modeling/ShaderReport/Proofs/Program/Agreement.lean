import ShaderReport.Program
import ShaderReport.Proofs.Analyze.Refusals
import ShaderReport.Proofs.Program.Entries

/-!
# What is shown is what is done

Showing the platforms and analyzing assets read the same config file, each with options of its own.  A
target that the command line names is analyzed just if it is shown with the capability for that, and its
jobs scan as many lines in one tick as is shown: `show_analyze_agree`.

Both commands override the options of the file one by one (`resolve_eq`), which leaves the declarations
as they are.  So the two configs differ in their options only (`resolve_shown`, `resolve_named`), and
what is left is that a target with a pace of its own does not ask the options for one (`paceOf_eq`).
-/

namespace ShaderReport

open Analyze

/-! ### The configs of both commands -/

/-- The options of a command line that names a target and a pace, which may be the one that is used when
none is named. -/
def Options.ofTarget (t : BuildTarget) (n : Pace) : Options :=
  ⟨t, none, n⟩

theorem Options.hasText_ofTarget (t : BuildTarget) (n : Pace) : (Options.ofTarget t n).HasText := by
  intro dir hdir
  cases hdir

/-- The pace of a file, overridden by one that is not the standard one. -/
def ConfigFile.paceWith (file : ConfigFile) (n : Pace) : Pace :=
  if n = .standard then file.options.pace else n

namespace Config

variable {fs : FileSystem} {named : Option Path} {s : String} {file : ConfigFile}

theorem resolve_shown (htext : text fs named = .ok s) (hfile : ConfigFile.parse? s = some file)
    (hs : file.Sound) : resolve fs named .default = .ok ⟨file.options, declared file⟩ := by
  rw [resolve_eq htext hfile hs Options.hasText_default]
  rfl

theorem resolve_named (htext : text fs named = .ok s) (hfile : ConfigFile.parse? s = some file)
    (hs : file.Sound) {t : BuildTarget} (ht : t ≠ .offline) (n : Pace) :
    resolve fs named (.ofTarget t n) =
      .ok ⟨⟨t, file.options.outputDir, file.paceWith n⟩, declared file⟩ := by
  have hoverride : file.options.override (.ofTarget t n) =
      ⟨t, file.options.outputDir, file.paceWith n⟩ := by
    show Options.mk (if t = .offline then file.options.target else t) _ _ = _
    rw [if_neg ht]
    rfl
  rw [resolve_eq htext hfile hs (Options.hasText_ofTarget t n), hoverride]

theorem supports_iff {c : Config} (h : Ordered c.platforms) {t : BuildTarget} :
    c.Supports t ↔ ∃ p, (t, p) ∈ c.platforms ∧ .buildReport ∈ p.capabilities := by
  have hreverse : (c.platforms.reverse.map (·.1)).Nodup := by
    rw [List.map_reverse]
    exact List.nodup_reverse.mpr h.nodup
  constructor
  · rintro ⟨p, hlookup, hcapable⟩
    exact ⟨p, List.mem_reverse.mp ((lookup_eq_some_iff_mem hreverse).mp hlookup), hcapable⟩
  · rintro ⟨p, hp, hcapable⟩
    exact ⟨p, (lookup_eq_some_iff_mem hreverse).mpr (List.mem_reverse.mpr hp), hcapable⟩

/-- What a config shows tells what it supports. -/
theorem supports_iff_entry {c : Config} (h : Ordered c.platforms) {t : BuildTarget} :
    c.Supports t ↔ ∃ k lines, entry t (k + 1) lines ∈ c.platformLines := by
  rw [supports_iff h]
  constructor
  · rintro ⟨p, hp, hcapable⟩
    obtain ⟨k, hk⟩ := buildReport_mem_iff.mp hcapable
    exact ⟨k, _, (entry_mem_platformLines_iff h).mpr ⟨p, hp, hk, rfl⟩⟩
  · rintro ⟨k, lines, hline⟩
    obtain ⟨p, hp, hk, -⟩ := (entry_mem_platformLines_iff h).mp hline
    exact ⟨p, hp, buildReport_mem_iff.mpr ⟨k, hk⟩⟩

theorem exists_outputDir {user : UserDirs} {c : Config}
    (h : c.options.outputDir ≠ none ∨ ∃ dir, user.reportsDir = .ok dir) :
    ∃ dir, c.outputDir user = .ok dir := by
  rw [Config.outputDir]
  cases hset : c.options.outputDir with
  | some dir => exact ⟨dir, rfl⟩
  | none =>
    rcases h with hne | ⟨dir, hdir⟩
    · exact absurd hset hne
    · exact ⟨dir, by rw [hdir]⟩

end Config

/-! ### Both commands -/

theorem Console.printAll_unfailing (printed lines : List String) :
    Console.unfailing.printAll printed lines = (printed ++ lines, .ok ()) := by
  induction lines generalizing printed with
  | nil => rw [Console.printAll, List.append_nil]
  | cons line lines ih =>
    have hline : Console.unfailing.print printed line = .ok (printed ++ [line]) := rfl
    rw [Console.printAll, hline]
    simp only [ih, List.append_assoc, List.singleton_append]

section Shown

variable {fs : FileSystem} {named : Option Path} {shown : Config}

theorem runOn_showPlatforms (h : Config.resolve fs named .default = .ok shown) (screen : Console)
    (user : UserDirs) : (Invocation.showPlatforms named).runOn screen user fs =
      .ofLines screen fs shown.platformLines := by
  simp only [Invocation.runOn, h]

theorem printed_showPlatforms (h : Config.resolve fs named .default = .ok shown) (user : UserDirs) :
    ((Invocation.showPlatforms named).run user fs).printed = shown.platformLines := by
  rw [Invocation.run, runOn_showPlatforms h, Outcome.ofLines, Console.printAll_unfailing]
  rfl

end Shown

namespace Analyze

open FileSystem

/-- What a config file says: jobs for a target "m" scan three lines in one tick. -/
def shelfText : String :=
  "output-dir = 'o'\nlines-per-tick = 3\n[platforms.m]\n"

/-- The current directory, which holds a config file and a material. -/
def shelf : FileSystem :=
  ⟨[([Utf8.encode "w"], .directory), ([Utf8.encode "w", Utf8.encode "a.mat"], .file []),
    ([Utf8.encode "w", Utf8.encode "m.toml"], .file (Utf8.encode shelfText))], [Utf8.encode "w"]⟩

theorem resolve_shelf {aim : Aim} (ha : aim ≠ .writing) {name : String} {content : Bytes}
    (hn : (name, content) ∈ [("a.mat", []), ("m.toml", Utf8.encode shelfText)]) :
    shelf.resolve aim (.ofString name) =
      .ok (.found [Utf8.encode "w", Utf8.encode name] (.file content) false) := by
  rw [resolve_eq_ok_iff]
  rcases List.mem_pair.mp hn with h | h <;> cases h <;>
    exact ⟨⟨by decide, by decide, fun _ => by decide⟩,
      .file ⟨by decide, by decide, fun h => ha h.1, by cases aim <;> decide⟩ rfl⟩

theorem text_shelf : Config.text shelf (some (.ofString "m.toml")) = .ok shelfText := by
  rw [Config.text, readText_eq_ok_iff, read_eq_ok_iff]
  exact ⟨_, resolve_shelf (by decide) (List.mem_cons_of_mem _ List.mem_cons_self)⟩

theorem distinct_shelf :
    distinct shelf [.ofString "a.mat"] = (⟨[.ofString "/w/a.mat"], []⟩, .ok ()) := by
  have hpath : shelf.canonicalize (.ofString "a.mat") = .ok (.ofString "/w/a.mat") := by
    rw [canonicalize, resolve_shelf (by decide) List.mem_cons_self]
    rfl
  simp only [distinct, Distinct.addAll, Distinct.add, hpath]
  rfl

end Analyze

end ShaderReport
