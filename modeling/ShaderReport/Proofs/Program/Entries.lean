import ShaderReport.Proofs.Config.Platforms
import ShaderReport.Show

/-!
# What the shown lines say

A target is shown in one line with its capabilities and its number of lines per tick.  The name of a
target may hold anything, and so another line within it, but nothing of that stands behind it: from the
end on, a line is cut at its last bracket and then at its last colon (`entry_inj`).

So the lines that are shown tell the declarations: `entry_mem_platformLines_iff`.
-/

namespace ShaderReport.Config

/-- How so many capabilities to build reports are shown. -/
def listing (k : Nat) : String :=
  if k = 0 then "no capabilities" else ", ".intercalate (List.replicate k "build-report")

/-- The line of a target with so many capabilities to build reports and a number of lines per tick. -/
def entry (t : BuildTarget) (k lines : Nat) : String :=
  s!"{t.name}: {listing k} ({lines} lines per tick)"

/-! ### Cutting a line -/

/-- Two texts that are the same are cut at the same place, if it is the last one that has the
character. -/
theorem eq_of_append_cons {c : Char} {as bs as' bs' : List Char} (hb : c ∉ bs) (hb' : c ∉ bs')
    (h : as ++ c :: bs = as' ++ c :: bs') : as = as' ∧ bs = bs' := by
  rcases List.append_eq_append_iff.mp h with ⟨more, hs, ht⟩ | ⟨more, hs, ht⟩
  · cases more with
    | nil => exact ⟨by simpa using hs.symm, by simpa using ht⟩
    | cons d more =>
      obtain ⟨-, rfl⟩ := List.cons.inj ht
      exact absurd (List.mem_append_right _ List.mem_cons_self) hb
  · cases more with
    | nil => exact ⟨by simpa using hs, by simpa using ht.symm⟩
    | cons d more =>
      obtain ⟨-, rfl⟩ := List.cons.inj ht
      exact absurd (List.mem_append_right _ List.mem_cons_self) hb'

theorem toDigits_injective {m n : Nat} (h : Nat.toDigits 10 m = Nat.toDigits 10 n) : m = n := by
  rw [← Nat.ofDigitChars_ten_toDigits (n := m), h, Nat.ofDigitChars_ten_toDigits]

theorem listing_succ (k : Nat) :
    (listing (k + 2)).toList = "build-report, ".toList ++ (listing (k + 1)).toList := by
  simp [listing, List.replicate_succ, String.toList_intercalate]

theorem length_listing (k : Nat) : (listing (k + 1)).toList.length = 14 * k + 12 := by
  induction k with
  | zero => decide
  | succ k ih =>
    rw [listing_succ, List.length_append, ih, show "build-report, ".toList.length = 14 from rfl]
    omega

theorem listing_injective {k l : Nat} (h : listing k = listing l) : k = l := by
  have hlength := congrArg (fun s => s.toList.length) h
  have hnone : (listing 0).toList.length = 15 := rfl
  cases k <;> cases l <;> simp only [length_listing, hnone] at hlength <;> omega

theorem colon_notMem_listing (k : Nat) : ':' ∉ (listing k).toList := by
  cases k with
  | zero => decide
  | succ k =>
    induction k with
    | zero => decide
    | succ k ih =>
      rw [listing_succ, List.mem_append, not_or]
      exact ⟨by decide, ih⟩

theorem toList_entry (t : BuildTarget) (k lines : Nat) :
    (entry t k lines).toList = (t.name.toList ++ ':' :: (' ' :: (listing k).toList ++ [' '])) ++
      '(' :: (Nat.toDigits 10 lines ++ " lines per tick)".toList) := by
  simp [entry, toString]

/-- **A line tells all that it shows.** -/
theorem entry_inj {t t' : BuildTarget} {k k' lines lines' : Nat} :
    entry t k lines = entry t' k' lines' ↔ t = t' ∧ k = k' ∧ lines = lines' := by
  constructor
  · intro h
    have hlist := congrArg String.toList h
    rw [toList_entry, toList_entry] at hlist
    have hdigits : ∀ n : Nat, '(' ∉ Nat.toDigits 10 n ++ " lines per tick)".toList := by
      intro n hmem
      rcases List.mem_append.mp hmem with hdigit | htext
      · have := Nat.isDigit_of_mem_toDigits (by decide) (by decide) hdigit
        revert this
        decide
      · revert htext
        decide
    obtain ⟨hfront, hback⟩ := eq_of_append_cons (hdigits _) (hdigits _) hlist
    have hcolon : ∀ k, ':' ∉ ' ' :: (listing k).toList ++ [' '] := by
      intro k
      simpa using colon_notMem_listing k
    obtain ⟨hname, hlisting⟩ := eq_of_append_cons (hcolon _) (hcolon _) hfront
    refine ⟨?_, ?_, ?_⟩
    · obtain ⟨name⟩ := t
      obtain ⟨name'⟩ := t'
      exact congrArg BuildTarget.mk (String.toList_inj.mp hname)
    · apply listing_injective
      exact String.toList_inj.mp (List.cons.inj (List.append_cancel_right hlisting)).2
    · exact toDigits_injective (List.append_cancel_right hback)
  · rintro ⟨rfl, rfl, rfl⟩
    rfl

/-! ### The lines of a config -/

theorem buildReport_mem_iff {capabilities : List Capability} :
    .buildReport ∈ capabilities ↔ ∃ k, capabilities.length = k + 1 := by
  cases capabilities with
  | nil => simp
  | cons capability capabilities =>
    cases capability
    exact ⟨fun _ => ⟨_, rfl⟩, fun _ => List.mem_cons_self⟩

/-- A capability is shown as often as it is declared. -/
theorem platformLine_eq (c : Config) (t : BuildTarget) (p : PlatformConfig) :
    c.platformLine t p = entry t p.capabilities.length (c.paceOf t).lines := by
  have hnames : p.capabilities.map Capability.name =
      List.replicate p.capabilities.length "build-report" := by
    rw [List.eq_replicate_iff]
    refine ⟨List.length_map _, ?_⟩
    intro name hname
    obtain ⟨capability, -, rfl⟩ := List.mem_map.mp hname
    cases capability
    rfl
  rw [platformLine, entry, listing, hnames]
  simp only [List.isEmpty_iff, List.length_eq_zero_iff]

/-- **A line is shown for a target just if the target is declared with that many capabilities and
that pace.** -/
theorem entry_mem_platformLines_iff {c : Config} (h : Ordered c.platforms) {t : BuildTarget}
    {k lines : Nat} :
    entry t k lines ∈ c.platformLines ↔ ∃ p, (t, p) ∈ c.platforms ∧ p.capabilities.length = k ∧
      (p.pace.getD c.options.pace).lines = lines := by
  rw [platformLines, List.mem_map]
  constructor
  · rintro ⟨⟨t', p⟩, hp, hline⟩
    simp only [platformLine_eq, paceOf_eq h hp, entry_inj] at hline
    obtain ⟨rfl, hk, hlines⟩ := hline
    exact ⟨p, hp, hk, hlines⟩
  · rintro ⟨p, hp, rfl, rfl⟩
    refine ⟨(t, p), hp, ?_⟩
    simp only [platformLine_eq, paceOf_eq h hp]

end ShaderReport.Config
