import ShaderReport.Proofs.Report.Draft
import ShaderReport.Proofs.Text.Utf8

/-!
# Reading reports back

A report that is written is read back as it was, from its laid out text and from its compact one, and
it can be written just when its asset path is the bytes of some text: `Report.parse_printed`.

The parts of a report are read back out of their values (`listOf_map`, `Status.ofMembers_append`,
`Analysis.ofMembers_append`).  The members of the report itself go into a draft (`takeAll_members`),
and as a text is read for the names and values of its members only, any spelling of these members is
read as the report.
-/

namespace ShaderReport

open Json (Value ReadError Spells)

/-! ### Parts out of values -/

@[simp] theorem Count.ofJson_toJson (n : Count) : Count.ofJson n.toJson = .ok n := by
  simp [Count.toJson, Value.ofNat, Count.ofJson, Count.ofNat?_val]

theorem listOf_map {α : Type} (write : α → Value) {read : Value → Except ReadError α}
    (h : ∀ a, read (write a) = .ok a) (as : List α) :
    listOf read (.array (as.map write)) = .ok as := by
  rw [listOf]
  induction as with
  | nil => rfl
  | cons a as ih =>
    rw [List.map_cons, List.mapM_cons, h, ih]
    rfl

@[simp] theorem listOf_ofStrings (texts : List String) :
    listOf stringOf (.ofStrings texts) = .ok texts :=
  listOf_map .string (fun _ => rfl) texts

theorem KeywordSet.ofJson_toJson (s : KeywordSet) : KeywordSet.ofJson s.toJson = .ok s := by
  simp [KeywordSet.toJson, KeywordSet.ofJson, theMember, stringOf, bind, Except.bind]

theorem Analysis.ofMembers_append (status : Status) (a : Analysis) :
    Analysis.ofMembers (status.members ++ a.members) = .ok a := by
  have hsets := listOf_map _ KeywordSet.ofJson_toJson a.keywordSets
  cases status <;>
    simp [Status.members, Analysis.members, Analysis.ofMembers, theMember, hsets, bind, Except.bind]

theorem Status.ofMembers_append (status : Status) (a : Analysis) :
    Status.ofMembers (status.members ++ a.members) = .ok status := by
  cases status <;>
    simp [Status.members, Analysis.members, Status.ofMembers, theMember, stringOf, bind,
      Except.bind, Value.ofNat]

theorem AssetKind.ofTag_tag (k : AssetKind) : AssetKind.ofTag k.tag = .ok k := by
  cases k <;> rfl

namespace Report

/-! ### Whole reports -/

/-- The members that state a report with the given asset. -/
def members (r : Report) (asset : String) : List (String × Value) :=
  [("asset", .string asset), ("asset-kind", .string r.assetKind.tag),
    ("build-target", .string r.target.name)] ++ r.status.members ++
      ("variant-count", r.variantCount.toJson) :: r.analysis.members

theorem toJson_of_asset {r : Report} {asset : String} (h : r.asset = Path.ofString asset) :
    r.toJson = .ok (.object (r.members asset)) := by
  have htext : r.asset.text? = some asset := by
    rw [h]
    exact Utf8.decode?_encode asset
  rw [toJson, Path.toText, htext]
  rfl

theorem readable_keywordSet {levels : Nat} (h : 2 < levels) (s : KeywordSet) :
    s.toJson.Readable levels :=
  ⟨by omega, trivial, Value.readable_ofStrings (by omega) s.keywords, trivial⟩

theorem readable_members (r : Report) (asset : String) :
    (Value.object (r.members asset)).Readable Json.maxLevels := by
  have hcount : ∀ n : Count, n.toJson.Readable 127 := fun n => Value.readable_ofNat n.lt
  have htexts : ∀ texts : List String, (Value.ofStrings texts).Readable 127 := fun texts =>
    Value.readable_ofStrings (by decide) texts
  have hsets : (Value.array (r.analysis.keywordSets.map KeywordSet.toJson)).Readable 127 := by
    refine ⟨by decide, Value.readableItems_iff.mpr ?_⟩
    intro v hv
    obtain ⟨s, -, rfl⟩ := List.mem_map.mp hv
    exact readable_keywordSet (by decide) s
  have htext : ∀ s : String, (Value.string s).Readable 127 := fun _ => trivial
  refine ⟨by decide, ?_⟩
  show Value.ReadableMembers 127 (r.members asset)
  cases hstatus : r.status <;>
    simp [members, hstatus, Status.members, Analysis.members, Value.ReadableMembers, hcount, htexts,
      hsets, htext]

/-- The members of a report make a draft of it, whose other members are those of its status and of
its analysis. -/
theorem takeAll_members (r : Report) (asset : String) :
    Draft.empty.takeAll (r.members asset) = .ok ⟨some asset, some r.assetKind, some r.target.name,
      some r.variantCount, r.status.members ++ r.analysis.members⟩ := by
  cases hstatus : r.status <;>
    simp [members, Draft.takeAll, Draft.take, takeInto, Draft.empty, hstatus, Status.members,
      Analysis.members, stringOf, AssetKind.ofJson, AssetKind.ofTag_tag, Except.map, bind,
      Except.bind, pure, Except.pure]

theorem parse_of_asset {r : Report} {asset : String} (h : r.asset = Path.ofString asset)
    {cs : List Char} (hcs : Spells Json.maxLevels (.value (.object (r.members asset))) cs) :
    parse (String.ofList cs) = .ok r := by
  rw [parse_of_object hcs.parse, ofObject, takeAll_members]
  simp only [ofDraft, Status.ofMembers_append, Analysis.ofMembers_append, bind, Except.bind]
  rw [← h]

theorem toJson_of_not_text {r : Report} (h : ¬ ∃ asset, r.asset = Path.ofString asset) :
    r.toJson = .error .notText := by
  have htext : r.asset.text? = none := by
    cases ht : r.asset.text? with
    | none => rfl
    | some asset =>
      have := Utf8.decode?_eq_some_iff.mp ht
      exact absurd ⟨asset, congrArg Path.mk this⟩ h
  rw [toJson, Path.toText, htext]
  rfl

theorem exists_text_of_toPretty {r : Report} {report : String} (h : r.toPretty = .ok report) :
    ∃ asset, r.asset = Path.ofString asset := by
  refine Classical.byContradiction fun hno => ?_
  rw [toPretty, toJson_of_not_text hno] at h
  cases h

/-- **Reports are read back as they were written.**  A report whose asset path is the bytes of a text
has a laid out and a compact text, and either is read as that report; any other report can be written
in neither form. -/
theorem parse_printed (r : Report) :
    ((∃ asset, r.asset = Path.ofString asset) ↔ ∃ text, r.toPretty = .ok text ∧ parse text = .ok r) ∧
    ((∃ asset, r.asset = Path.ofString asset) ↔
      ∃ text, r.toCompact = .ok text ∧ parse text = .ok r) ∧
    ((¬ ∃ asset, r.asset = Path.ofString asset) ↔ r.toPretty = .error .notText) ∧
    ((¬ ∃ asset, r.asset = Path.ofString asset) ↔ r.toCompact = .error .notText) := by
  by_cases h : ∃ asset, r.asset = Path.ofString asset
  · obtain ⟨asset, hasset⟩ := h
    have hreadable := readable_members r asset
    have hpretty := parse_of_asset hasset (Json.spells_pretty _ hreadable 0)
    have hcompact := parse_of_asset hasset (Json.spells_compact _ hreadable)
    have hjson := toJson_of_asset hasset
    have hp : r.toPretty = .ok (Value.object (r.members asset)).toPretty := by
      rw [toPretty, hjson]
      rfl
    have hc : r.toCompact = .ok (Value.object (r.members asset)).toCompact := by
      rw [toCompact, hjson]
      rfl
    refine ⟨⟨fun _ => ⟨_, hp, hpretty⟩, fun _ => ⟨asset, hasset⟩⟩,
      ⟨fun _ => ⟨_, hc, hcompact⟩, fun _ => ⟨asset, hasset⟩⟩, ?_, ?_⟩
    · rw [hp]
      exact ⟨fun h => absurd ⟨asset, hasset⟩ h, fun h => nomatch h⟩
    · rw [hc]
      exact ⟨fun h => absurd ⟨asset, hasset⟩ h, fun h => nomatch h⟩
  · have hjson := toJson_of_not_text h
    have hp : r.toPretty = .error .notText := by
      rw [toPretty, hjson]
      rfl
    have hc : r.toCompact = .error .notText := by
      rw [toCompact, hjson]
      rfl
    simp [h, hp, hc]

end Report

end ShaderReport
