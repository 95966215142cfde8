import ShaderReport.Config.Options
import ShaderReport.Proofs.Text.Utf8

/-!
# Merging options

Options are merged through the members of an object.  As long as the directories are text, that comes
down to each option on its own: it is the one of the patch, unless that is the default one
(`merge_eq`).  A directory that is not text has no member, and there is nothing to merge
(`merge_of_not_hasText`).  Nothing else can go wrong (`merge_ne_malformed`).

Overriding is associative, and the default options change nothing on either side (`override_assoc`,
`default_override`, `override_default`): the values of an option are a monoid with the default one as its
unit.  `merge_monoid` says this of merging.
-/

namespace ShaderReport.Options

open Json (Value)

/-- Whether the directory, if there is one, is text. -/
def HasText (o : Options) : Prop :=
  ∀ dir, o.outputDir = some dir → ∃ s, dir = .ofString s

theorem hasText_default : default.HasText :=
  nofun

/-- The options of a base, each overridden by that of a patch unless this is the default one. -/
def override (base patch : Options) : Options where
  target := if patch.target = default.target then base.target else patch.target
  outputDir := if patch.outputDir = default.outputDir then base.outputDir else patch.outputDir
  pace := if patch.pace = default.pace then base.pace else patch.pace

/-! ### Members -/

theorem directoryValue_eq {o : Options} (h : o.HasText) :
    ∃ v, directoryValue o.outputDir = .ok v ∧ directory? v = some o.outputDir ∧
      (v = .null ↔ o.outputDir = none) := by
  cases hdir : o.outputDir with
  | none => exact ⟨.null, rfl, rfl, by simp⟩
  | some dir =>
    obtain ⟨s, rfl⟩ := h dir hdir
    refine ⟨.string s, ?_, rfl, by simp⟩
    rw [directoryValue, Path.toText, Path.text?, Path.ofString, Utf8.decode?_encode]
    rfl

/-- The three members of options, with their values. -/
def membersOf (target dir pace : Value) : List (String × Value) :=
  [("platform", target), ("output-dir", dir), ("lines-per-tick", pace)]

/-- The members of options, with the value of the directory. -/
def membersWith (o : Options) (dir : Value) : List (String × Value) :=
  membersOf (.string o.target.name) dir (.ofNat o.pace.lines)

theorem lookup_membersOf (target dir pace : Value) :
    (membersOf target dir pace).lookup "platform" = some target ∧
      (membersOf target dir pace).lookup "output-dir" = some dir ∧
      (membersOf target dir pace).lookup "lines-per-tick" = some pace :=
  ⟨rfl, rfl, rfl⟩

theorem members_eq {o : Options} {v : Value} (h : directoryValue o.outputDir = .ok v) :
    o.members = .ok (o.membersWith v) := by
  rw [members, h]
  rfl

theorem ofMembers?_membersWith (o : Options) {v : Value} {dir : Option Path}
    (h : directory? v = some dir) :
    ofMembers? (o.membersWith v) = some { o with outputDir := dir } := by
  obtain ⟨htarget, hdir, hpace⟩ := lookup_membersOf (.string o.target.name) v (.ofNat o.pace.lines)
  have hlines : pace? (.ofNat o.pace.lines) = some o.pace := Pace.ofNat?_lines o.pace
  rw [ofMembers?, membersWith, memberOr, memberOr, memberOr, htarget, hdir, hpace]
  simp only [h, hlines]
  rfl

/-- That a value is the default one can be told from its member. -/
theorem unless_default {α : Type} [DecidableEq α] {f : α → Value} (hf : f.Injective)
    (d base patch : α) :
    (if some (f d) = some (f patch) then f base else f patch) =
      f (if patch = d then base else patch) := by
  by_cases h : patch = d
  · rw [if_pos h, if_pos (h ▸ rfl)]
  · rw [if_neg h, if_neg]
    intro heq
    exact h (hf (Option.some.inj heq)).symm

theorem target_injective : (fun t : BuildTarget => Value.string t.name).Injective := by
  rintro ⟨name⟩ ⟨name'⟩ h
  exact congrArg BuildTarget.mk (Value.string.inj h)

theorem pace_injective : (fun p : Pace => Value.ofNat p.lines).Injective := by
  rintro ⟨n, hn⟩ ⟨n', hn'⟩ h
  have heq : n = n' := Int.ofNat.inj (Json.Number.whole.inj (Value.number.inj h))
  subst heq
  rfl

theorem overlay_membersOf (t₀ d₀ p₀ t d p t' d' p' : Value) :
    overlay (membersOf t₀ d₀ p₀) (membersOf t d p) (membersOf t' d' p') =
      membersOf (if some t₀ = some t' then t else t') (if some d₀ = some d' then d else d')
        (if some p₀ = some p' then p else p') := by
  obtain ⟨ht₀, hd₀, hp₀⟩ := lookup_membersOf t₀ d₀ p₀
  have hpatch : membersOf t' d' p' =
    [("platform", t'), ("output-dir", d'), ("lines-per-tick", p')] := rfl
  rw [overlay, hpatch]
  simp only [List.foldl_cons, List.foldl_nil, ht₀, hd₀, hp₀]
  split <;> split <;> split <;> rfl

theorem overlay_eq (base patch : Options) (dir dir' : Value) :
    overlay (default.membersWith .null) (base.membersWith dir) (patch.membersWith dir') =
      (base.override patch).membersWith (if dir' = .null then dir else dir') := by
  have htarget := unless_default target_injective default.target base.target patch.target
  have hdir := unless_default Function.injective_id .null dir dir'
  have hpace := unless_default pace_injective default.pace base.pace patch.pace
  rw [membersWith, membersWith, membersWith, overlay_membersOf, htarget, hpace]
  exact congrArg (fun v => membersOf _ v _) hdir

/-- **What is left of the members of options once others override them holds options again.** -/
theorem ofMembers?_overlay {base patch : Options} {dir dir' : Value}
    (hbase : directory? dir = some base.outputDir) (hpatch : directory? dir' = some patch.outputDir)
    (hnull : dir' = .null ↔ patch.outputDir = none) :
    ofMembers? (overlay (default.membersWith .null) (base.membersWith dir)
      (patch.membersWith dir')) = some (base.override patch) := by
  have hdir : directory? (if dir' = .null then dir else dir') =
      some (if patch.outputDir = none then base.outputDir else patch.outputDir) := by
    by_cases hnone : patch.outputDir = none
    · rw [if_pos hnone, if_pos (hnull.mpr hnone), hbase]
    · rw [if_neg hnone, if_neg (fun h => hnone (hnull.mp h)), hpatch]
  rw [overlay_eq, ofMembers?_membersWith _ hdir]
  rfl

/-- **Options are overridden one by one.** -/
theorem merge_eq {base patch : Options} (hb : base.HasText) (hp : patch.HasText) :
    base.merge patch = .ok (base.override patch) := by
  obtain ⟨dir, hdir, hbase, -⟩ := directoryValue_eq hb
  obtain ⟨dir', hdir', hpatch, hnull⟩ := directoryValue_eq hp
  have hdefault : default.members = .ok (default.membersWith .null) := members_eq rfl
  have hmap : ∀ ms, (Except.ok ms : Except PathError (List (String × Value))).mapError MergeError.path =
      .ok ms := fun _ => rfl
  rw [merge, members_eq hdir, members_eq hdir', hdefault]
  simp only [hmap, bind, Except.bind, ofMembers?_overlay hbase hpatch hnull]

/-! ### When there is nothing to merge -/

theorem members_of_not_hasText {o : Options} (h : ¬ o.HasText) : o.members = .error .notText := by
  cases hdir : o.outputDir with
  | none =>
    refine absurd ?_ h
    intro dir hsome
    rw [hdir] at hsome
    cases hsome
  | some dir =>
    have hnone : dir.text? = none := by
      rw [Option.eq_none_iff_forall_ne_some]
      intro s hs
      refine h ?_
      intro dir' hsome
      obtain rfl : dir = dir' := Option.some.inj (hdir.symm.trans hsome)
      exact ⟨s, congrArg Path.mk (Utf8.decode?_eq_some_iff.mp hs)⟩
    rw [members, hdir, directoryValue, Path.toText, hnone]
    rfl

theorem merge_of_not_hasText {base patch : Options} (h : ¬ (base.HasText ∧ patch.HasText)) :
    base.merge patch = .error (.path .notText) := by
  by_cases hb : base.HasText
  · obtain ⟨dir, hdir, -⟩ := directoryValue_eq hb
    rw [merge, members_eq hdir, members_of_not_hasText (fun hp => h ⟨hb, hp⟩)]
    rfl
  · rw [merge, members_of_not_hasText hb]
    rfl

/-- **Merging never comes out with members that hold no options.** -/
theorem merge_ne_malformed (base patch : Options) : base.merge patch ≠ .error .malformed := by
  intro h
  by_cases ht : base.HasText ∧ patch.HasText
  · rw [merge_eq ht.1 ht.2] at h
    cases h
  · rw [merge_of_not_hasText ht] at h
    cases h

theorem hasText_override {base patch : Options} (hb : base.HasText) (hp : patch.HasText) :
    (base.override patch).HasText := by
  intro dir hdir
  rw [override] at hdir
  dsimp only at hdir
  split at hdir
  · exact hb dir hdir
  · exact hp dir hdir

/-! ### The monoid of options -/

/-- Of three values, the last one that is not the default one is what is left, whichever two are joined
first. -/
theorem unless_assoc {α : Type} [DecidableEq α] (d a b c : α) :
    (if c = d then if b = d then a else b else c) =
      if (if c = d then b else c) = d then a else if c = d then b else c := by
  by_cases hc : c = d
  · rw [if_pos hc, if_pos hc]
  · rw [if_neg hc, if_neg hc, if_neg hc]

theorem override_assoc (a b c : Options) : (a.override b).override c = a.override (b.override c) := by
  simp only [override, Options.mk.injEq]
  exact ⟨unless_assoc _ _ _ _, unless_assoc _ _ _ _, unless_assoc _ _ _ _⟩

theorem default_override (o : Options) : default.override o = o := by
  obtain ⟨target, dir, pace⟩ := o
  simp only [override, Options.mk.injEq, ite_eq_right_iff]
  exact ⟨Eq.symm, Eq.symm, Eq.symm⟩

theorem override_default (o : Options) : o.override default = o := by
  simp only [override, if_true]

theorem override_self (o : Options) : o.override o = o := by
  simp only [override, ite_self]

theorem merge_merge_eq {a b c : Options} (h : a.HasText ∧ b.HasText ∧ c.HasText) :
    (a.merge b >>= fun o => o.merge c) = .ok ((a.override b).override c) ∧
      (b.merge c >>= fun o => a.merge o) = .ok (a.override (b.override c)) := by
  obtain ⟨ha, hb, hc⟩ := h
  rw [merge_eq ha hb, merge_eq hb hc]
  exact ⟨merge_eq (hasText_override ha hb) hc, merge_eq ha (hasText_override hb hc)⟩

theorem merge_merge_of_not_hasText {a b c : Options} (h : ¬ (a.HasText ∧ b.HasText ∧ c.HasText)) :
    (a.merge b >>= fun o => o.merge c) = .error (.path .notText) ∧
      (b.merge c >>= fun o => a.merge o) = .error (.path .notText) := by
  constructor
  · by_cases hab : a.HasText ∧ b.HasText
    · rw [merge_eq hab.1 hab.2]
      exact merge_of_not_hasText fun hc => h ⟨hab.1, hab.2, hc.2⟩
    · rw [merge_of_not_hasText hab]
      rfl
  · by_cases hbc : b.HasText ∧ c.HasText
    · rw [merge_eq hbc.1 hbc.2]
      exact merge_of_not_hasText fun ha => h ⟨ha.1, hbc⟩
    · rw [merge_of_not_hasText hbc]
      rfl

theorem merge_assoc (a b c : Options) :
    (a.merge b >>= fun o => o.merge c) = b.merge c >>= fun o => a.merge o := by
  by_cases h : a.HasText ∧ b.HasText ∧ c.HasText
  · rw [(merge_merge_eq h).1, (merge_merge_eq h).2, override_assoc]
  · rw [(merge_merge_of_not_hasText h).1, (merge_merge_of_not_hasText h).2]

theorem exists_merge_iff (base patch : Options) :
    (∃ o, base.merge patch = .ok o) ↔ base.HasText ∧ patch.HasText := by
  constructor
  · rintro ⟨o, ho⟩
    refine Classical.byContradiction fun h => ?_
    rw [merge_of_not_hasText h] at ho
    cases ho
  · intro h
    exact ⟨_, merge_eq h.1 h.2⟩

theorem pace_eq_default_iff (p : Pace) : p = default.pace ↔ p.lines = 64 := by
  constructor
  · exact congrArg Pace.lines
  · intro h
    obtain ⟨lines, hlines⟩ := p
    subst h
    rfl

/-- **Merging is a monoid, and overrides option by option.**  It works out just when both directories
are text.  Then each option is the one of the patch, unless that is `offline`, no directory or 64 lines.
The default options change nothing on either side, merging a patch again changes nothing, and of
three options it does not matter which two are merged first. -/
theorem merge_monoid (base patch more : Options) :
    ((∃ o, base.merge patch = .ok o) ↔ base.HasText ∧ patch.HasText) ∧
    (∀ o, base.merge patch = .ok o →
      o.target = (if patch.target = ⟨"offline"⟩ then base.target else patch.target) ∧
      o.outputDir = (if patch.outputDir = none then base.outputDir else patch.outputDir) ∧
      o.pace = (if patch.pace.lines = 64 then base.pace else patch.pace)) ∧
    (base.HasText → default.merge base = .ok base ∧ base.merge default = .ok base) ∧
    (base.merge patch >>= fun o => o.merge patch) = base.merge patch ∧
    (base.merge patch >>= fun o => o.merge more) = patch.merge more >>= fun o => base.merge o := by
  refine ⟨exists_merge_iff base patch, ?_, ?_, ?_, merge_assoc base patch more⟩
  · intro o ho
    obtain ⟨hb, hp⟩ := (exists_merge_iff base patch).mp ⟨o, ho⟩
    obtain rfl : base.override patch = o := Except.ok.inj ((merge_eq hb hp).symm.trans ho)
    refine ⟨rfl, rfl, ?_⟩
    simp only [override, pace_eq_default_iff]
  · intro hb
    rw [merge_eq hasText_default hb, merge_eq hb hasText_default, default_override, override_default]
    exact ⟨rfl, rfl⟩
  · by_cases hp : patch.HasText
    · rw [merge_assoc, merge_eq hp hp, override_self]
      rfl
    · rw [merge_of_not_hasText fun h => hp h.2]
      rfl

/-- A target from the patch, and a directory and a pace that only the base sets. -/
theorem merge_monoid_moon :
    let base : Options := ⟨⟨"mobile"⟩, some (.ofString "/the/moon"), ⟨8, by decide⟩⟩
    let patch : Options := { default with target := ⟨"console"⟩ }
    let merged : Options := { base with target := ⟨"console"⟩ }
    (base.merge patch = .ok merged ∧ merged.target = ⟨"console"⟩ ∧
      merged.outputDir = some (.ofString "/the/moon") ∧ merged.pace.lines = 8) ∧
    base.HasText ∧ default.merge base = .ok base ∧ base.merge default = .ok base := by
  intro base patch merged
  have hbase : base.HasText := by
    intro dir hdir
    exact ⟨"/the/moon", (Option.some.inj hdir).symm⟩
  have hpatch : patch.HasText := by
    intro dir hdir
    cases hdir
  obtain ⟨-, hfields, hunit, -⟩ := merge_monoid base patch patch
  have hmerge : base.merge patch = .ok merged := merge_eq hbase hpatch
  obtain ⟨htarget, hdir, hpace⟩ := hfields merged hmerge
  refine ⟨⟨hmerge, htarget, hdir, ?_⟩, hbase, hunit hbase⟩
  rw [hpace]
  rfl

end ShaderReport.Options
