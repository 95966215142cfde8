import ShaderReport.Proofs.Json.Members
import ShaderReport.Report.Decode

/-!
# Reading a report off its members

The members of a report are read while its text is, some of them in a form of their own, some as values
that are kept for later.  Still only their names and values count: `parse_of_object` says that the text
of an object is read as the report that the names and values of its members make (`ofObject`), or is
refused for the reason that they give; and a text of anything else is no report
(`exists_object_of_parse`).
-/

namespace ShaderReport

open Json (Value Reader ReadError ReadsMembers)

/-- The kind of assets that a value holds: its word, or an object whose only member has that name and
the value `null`. -/
def AssetKind.ofJson : Value → Except ReadError AssetKind
  | .string tag => AssetKind.ofTag tag
  | .object ((tag, v) :: more) => do
    let kind ← AssetKind.ofTag tag
    let () ← if v = .null then .ok () else .error .mismatch
    if more.isEmpty then .ok kind else .error .malformed
  | _ => .error .malformed

namespace Report

/-! ### One part -/

/-- Whether a form of values has no arrays and no objects in it. -/
def OnlyScalars {α : Type} (accept : Value → Except ReadError α) : Prop :=
  ∀ v, ¬ v.IsScalar → accept v = .error .mismatch

theorem onlyScalars_of {α : Type} {accept : Value → Except ReadError α}
    (harray : ∀ vs, accept (.array vs) = .error .mismatch)
    (hobject : ∀ ms, accept (.object ms) = .error .mismatch) : OnlyScalars accept := by
  intro v hv
  cases v with
  | array vs => exact harray vs
  | object ms => exact hobject ms
  | _ => exact absurd trivial hv

theorem onlyScalars_stringOf : OnlyScalars stringOf :=
  onlyScalars_of (fun _ => rfl) fun _ => rfl

theorem onlyScalars_count : OnlyScalars Count.ofJson :=
  onlyScalars_of (fun _ => rfl) fun _ => rfl

theorem onlyScalars_null :
    OnlyScalars fun v => if v = .null then .ok () else .error .mismatch :=
  onlyScalars_of (fun _ => rfl) fun _ => rfl

theorem expecting_of_scalar {α : Type} (accept : Value → Except ReadError α) {cs tail rest : List Char}
    {c : Char} {v : Value} (hskip : Json.skipBlanks cs = c :: tail)
    (h : Json.scalar (c :: tail) = .ok (v, rest)) :
    expecting accept cs = (accept v).map fun a => (a, rest) := by
  obtain ⟨-, hbracket, hbrace⟩ := Json.beginsScalar_of_scalar h
  unfold expecting
  rw [hskip]
  split
  · next heq =>
    cases heq
    exact absurd rfl hbracket
  · next heq =>
    cases heq
    exact absurd rfl hbrace
  · rw [h]
    rfl

/-- **A part that is read off the text is the part that its value holds.** -/
theorem expecting_of_value {α : Type} {accept : Value → Except ReadError α}
    (hscalars : OnlyScalars accept) {levels : Nat} {cs rest : List Char} {v : Value}
    (h : Json.value levels cs = .ok (v, rest)) :
    expecting accept cs = (accept v).map fun a => (a, rest) := by
  rcases Json.value_cases h with ⟨tail, vs, hskip, rfl⟩ | ⟨tail, ms, hskip, rfl, -⟩ |
    ⟨c, tail, hskip, hread⟩
  · rw [expecting, hskip, hscalars _ id]
    rfl
  · rw [expecting, hskip, hscalars _ id]
    rfl
  · exact expecting_of_scalar accept hskip hread

theorem exists_value_of_expecting {α : Type} {accept : Value → Except ReadError α}
    {cs rest : List Char} {a : α} (h : expecting accept cs = .ok (a, rest)) (levels : Nat) :
    ∃ v, Json.value levels cs = .ok (v, rest) := by
  unfold expecting at h
  split at h
  · cases h
  · cases h
  · obtain ⟨⟨v, left⟩, hread, h⟩ := Json.bind_eq_ok_iff.mp h
    obtain ⟨_, -, heq⟩ := Json.bind_eq_ok_iff.mp h
    cases heq
    cases hskip : Json.skipBlanks cs with
    | nil =>
      rw [hskip] at hread
      cases hread
    | cons c tail =>
      rw [hskip] at hread
      exact ⟨v, Json.value_of_scalar hskip hread levels⟩

/-! ### Kinds of assets -/

theorem readWord_of_text {cs tail rest : List Char} {tag : String}
    (hskip : Json.skipBlanks cs = '"' :: tail) (htext : Json.text tail = .ok (tag, rest)) :
    readWord cs = (AssetKind.ofTag tag).map fun k => (k, rest) := by
  rw [readWord, hskip]
  simp only [htext]
  rfl

theorem readWord_of_ne {cs tail : List Char} {c : Char} (hskip : Json.skipBlanks cs = c :: tail)
    (hc : c ≠ '"') : readWord cs = .error .malformed := by
  unfold readWord
  rw [hskip]
  split
  · next heq =>
    cases heq
    exact absurd rfl hc
  · rfl

theorem skipBlanks_of_eq {cs tail : List Char} {c : Char} (h : Json.skipBlanks cs = c :: tail) :
    Json.skipBlanks (c :: tail) = c :: tail :=
  Json.skipBlanks_append Json.blank_nil (Json.skipBlanks_eq_cons h).1 tail

theorem readKind_of_ne {cs tail : List Char} {c : Char} (hskip : Json.skipBlanks cs = c :: tail)
    (hc : c ≠ '\x7b') : readKind cs = readWord (c :: tail) := by
  unfold readKind
  rw [hskip]
  split
  · next heq =>
    cases heq
    exact absurd rfl hc
  · rfl

/-- A kind of assets that is read as an object has one member. -/
theorem readKind_of_members {levels : Nat} {cs tail rest : List Char} {ms : List (String × Value)}
    (hskip : Json.skipBlanks cs = '\x7b' :: tail) (h : ReadsMembers levels true tail ms rest) :
    readKind cs = (AssetKind.ofJson (.object ms)).map fun k => (k, rest) := by
  rw [readKind, hskip]
  cases h with
  | close hname =>
    obtain ⟨b, hb, rfl⟩ := Json.nextName_eq_none hname
    have hbrace := Json.skipBlanks_append hb (c := '\x7d') (by decide) rest
    simp only [readWord_of_ne hbrace (by decide)]
    rfl
  | @member _ _ left behind middle _ tag v more hname hcolon hvalue hmore =>
    obtain ⟨t, hquote, htext⟩ := Json.nextName_true_iff.mp hname
    have hnull := expecting_of_value onlyScalars_null hvalue
    simp only [readWord_of_text hquote htext, AssetKind.ofJson]
    cases AssetKind.ofTag tag with
    | error e => rfl
    | ok kind =>
      simp only [Except.map, bind, Except.bind, hcolon, hnull]
      by_cases hv : v = .null
      · simp only [if_pos hv]
        cases hmore with
        | close hclose =>
          obtain ⟨b, hb, rfl⟩ := Json.nextName_eq_none hclose
          rw [Json.skipBlanks_append hb (by decide)]
          rfl
        | member hname' hcolon' hvalue' hmore' =>
          obtain ⟨b, t', hb, rfl, -⟩ := Json.nextName_false_iff.mp hname'
          rw [Json.skipBlanks_append hb (by decide)]
          rfl
      · simp only [if_neg hv]

theorem ofJson_of_scalar {c : Char} {tail rest : List Char} {v : Value} (hc : c ≠ '"')
    (h : Json.scalar (c :: tail) = .ok (v, rest)) : AssetKind.ofJson v = .error .malformed := by
  unfold Json.scalar at h
  split at h
  case h_4 heq =>
    cases heq
    exact absurd rfl hc
  case h_5 =>
    split at h
    · obtain ⟨_, -, heq⟩ := Json.map_eq_ok_iff.mp h
      cases heq
      rfl
    · cases h
  case h_6 => cases h
  all_goals
    obtain ⟨_, -, heq⟩ := Json.map_eq_ok_iff.mp h
    cases heq
    rfl

/-- **A kind of assets that is read off the text is the kind that its value holds.** -/
theorem readKind_of_value {levels : Nat} {cs rest : List Char} {v : Value}
    (h : Json.value levels cs = .ok (v, rest)) :
    readKind cs = (AssetKind.ofJson v).map fun k => (k, rest) := by
  rcases Json.value_cases h with ⟨tail, vs, hskip, rfl⟩ | ⟨tail, ms, hskip, rfl, hms⟩ |
    ⟨c, tail, hskip, hread⟩
  · rw [readKind_of_ne hskip (by decide), readWord_of_ne (skipBlanks_of_eq hskip) (by decide)]
    rfl
  · exact readKind_of_members hskip hms
  · obtain ⟨-, -, hbrace⟩ := Json.beginsScalar_of_scalar hread
    rw [readKind_of_ne hskip hbrace]
    by_cases hc : c = '"'
    · subst hc
      obtain ⟨⟨tag, left⟩, htext, heq⟩ := Json.map_eq_ok_iff.mp hread
      cases heq
      exact readWord_of_text (skipBlanks_of_eq hskip) htext
    · rw [readWord_of_ne (skipBlanks_of_eq hskip) hc, ofJson_of_scalar hc hread]
      rfl

theorem exists_text_of_readWord {cs rest : List Char} {k : AssetKind}
    (h : readWord cs = .ok (k, rest)) :
    ∃ tail tag, Json.skipBlanks cs = '"' :: tail ∧ Json.text tail = .ok (tag, rest) := by
  unfold readWord at h
  split at h
  · next tail hskip =>
    obtain ⟨⟨tag, left⟩, htext, h⟩ := Json.bind_eq_ok_iff.mp h
    obtain ⟨_, -, heq⟩ := Json.bind_eq_ok_iff.mp h
    cases heq
    exact ⟨tail, tag, hskip, htext⟩
  · exact absurd h Json.not_refuse_eq_ok

theorem exists_value_of_readKind {levels : Nat} (hlevels : 1 < levels) {cs rest : List Char}
    {k : AssetKind} (h : readKind cs = .ok (k, rest)) :
    ∃ v, Json.value levels cs = .ok (v, rest) := by
  unfold readKind at h
  split at h
  · next tail hskip =>
    obtain ⟨⟨kind, left⟩, hword, h⟩ := Json.bind_eq_ok_iff.mp h
    obtain ⟨⟨⟨⟩, behind⟩, hcolon, h⟩ := Json.bind_eq_ok_iff.mp h
    obtain ⟨⟨⟨⟩, middle⟩, hnull, h⟩ := Json.bind_eq_ok_iff.mp h
    obtain ⟨v, hv⟩ := exists_value_of_expecting hnull (levels - 1)
    obtain ⟨t, tag, hquote, htext⟩ := exists_text_of_readWord hword
    have hname := Json.nextName_true_iff.mpr ⟨t, hquote, htext⟩
    dsimp only at h
    split at h
    · next last hbrace =>
      cases h
      obtain ⟨-, b, hb, rfl⟩ := Json.skipBlanks_eq_cons hbrace
      refine ⟨_, Json.value_of_members hlevels hskip (.member hname hcolon hv (.close ?_))⟩
      exact Json.nextName_close false hb _
    · exact absurd h Json.not_refuse_eq_ok
  · obtain ⟨tail, tag, hquote, htext⟩ := exists_text_of_readWord h
    cases hskip : Json.skipBlanks cs with
    | nil =>
      rw [hskip] at hquote
      cases hquote
    | cons c t =>
      rw [hskip, skipBlanks_of_eq hskip] at hquote
      cases hquote
      exact ⟨.string tag, Json.value_of_scalar hskip (Json.map_eq_ok_iff.mpr ⟨_, htext, rfl⟩) levels⟩

/-! ### Members -/

/-- A draft with one more part, if the place of the part is free. -/
def takeInto {α : Type} (place : Option α) (part : Except ReadError α) (put : α → Draft) :
    Except ReadError Draft :=
  match place with
  | some _ => .error .mismatch
  | none => part.map put

/-- A draft with one more member. -/
def Draft.take (d : Draft) (m : String × Value) : Except ReadError Draft :=
  if m.1 = "asset" then takeInto d.asset (stringOf m.2) fun s => { d with asset := some s }
  else if m.1 = "asset-kind" then
    takeInto d.assetKind (AssetKind.ofJson m.2) fun k => { d with assetKind := some k }
  else if m.1 = "build-target" then
    takeInto d.target (stringOf m.2) fun s => { d with target := some s }
  else if m.1 = "variant-count" then
    takeInto d.variantCount (Count.ofJson m.2) fun n => { d with variantCount := some n }
  else .ok { d with others := d.others ++ [m] }

/-- A draft with more members, put into it one after the other. -/
def Draft.takeAll (d : Draft) (ms : List (String × Value)) : Except ReadError Draft :=
  ms.foldlM Draft.take d

/-- The report that the members of an object make. -/
def ofObject (ms : List (String × Value)) : Except ReadError Report :=
  Draft.empty.takeAll ms >>= ofDraft

theorem readInto_eq {α : Type} (place : Option α) {read : Reader α} {part : Except ReadError α}
    (put : α → Draft) {cs behind rest : List Char} (hcolon : Json.colon cs = .ok ((), behind))
    (hread : read behind = part.map fun a => (a, rest)) :
    readInto place read put cs = (takeInto place part put).map fun d => (d, rest) := by
  cases place with
  | some a => rfl
  | none =>
    simp only [readInto, takeInto, hcolon, bind, Except.bind, hread]
    cases part <;> rfl

/-- **A member is taken into a draft for its name and its value.** -/
theorem readMember_eq (d : Draft) (name : String) {cs behind rest : List Char} {v : Value}
    (hcolon : Json.colon cs = .ok ((), behind))
    (hvalue : Json.value (Json.maxLevels - 1) behind = .ok (v, rest)) :
    readMember d name cs = (d.take (name, v)).map fun d => (d, rest) := by
  unfold readMember Draft.take
  dsimp only
  split
  · exact readInto_eq _ _ hcolon (expecting_of_value onlyScalars_stringOf hvalue)
  split
  · exact readInto_eq _ _ hcolon (readKind_of_value hvalue)
  split
  · exact readInto_eq _ _ hcolon (expecting_of_value onlyScalars_stringOf hvalue)
  split
  · exact readInto_eq _ _ hcolon (expecting_of_value onlyScalars_count hvalue)
  · have hread : Json.value (Json.maxLevels - 1) behind =
        (.ok v : Except ReadError Value).map fun v => (v, rest) := hvalue
    exact readInto_eq none (fun v => { d with others := d.others ++ [(name, v)] }) hcolon hread

theorem readInto_eq_ok {α : Type} {place : Option α} {read : Reader α} {put : α → Draft}
    {cs rest : List Char} {d : Draft} (h : readInto place read put cs = .ok (d, rest)) :
    ∃ behind a, Json.colon cs = .ok ((), behind) ∧ read behind = .ok (a, rest) := by
  cases place with
  | some a => cases h
  | none =>
    obtain ⟨⟨⟨⟩, behind⟩, hcolon, h⟩ := Json.bind_eq_ok_iff.mp h
    obtain ⟨⟨a, left⟩, hread, h⟩ := Json.bind_eq_ok_iff.mp h
    cases h
    exact ⟨behind, a, hcolon, hread⟩

theorem exists_value_of_readMember {d d' : Draft} {name : String} {cs rest : List Char}
    (h : readMember d name cs = .ok (d', rest)) :
    ∃ behind v, Json.colon cs = .ok ((), behind) ∧
      Json.value (Json.maxLevels - 1) behind = .ok (v, rest) := by
  have hscalar : ∀ {α : Type} {accept : Value → Except ReadError α} {place : Option α}
      {put : α → Draft}, readInto place (expecting accept) put cs = .ok (d', rest) →
      ∃ behind v, Json.colon cs = .ok ((), behind) ∧
        Json.value (Json.maxLevels - 1) behind = .ok (v, rest) := by
    intro α accept place put h
    obtain ⟨behind, a, hcolon, hread⟩ := readInto_eq_ok h
    obtain ⟨v, hv⟩ := exists_value_of_expecting hread _
    exact ⟨behind, v, hcolon, hv⟩
  unfold readMember at h
  split at h
  · exact hscalar h
  split at h
  · obtain ⟨behind, k, hcolon, hread⟩ := readInto_eq_ok h
    obtain ⟨v, hv⟩ := exists_value_of_readKind (show 1 < Json.maxLevels - 1 by decide) hread
    exact ⟨behind, v, hcolon, hv⟩
  split at h
  · exact hscalar h
  split at h
  · exact hscalar h
  · exact readInto_eq_ok h

theorem readMembers_eq {first : Bool} {cs rest : List Char} {ms : List (String × Value)}
    (h : ReadsMembers (Json.maxLevels - 1) first cs ms rest) (d : Draft) {n : Nat}
    (hn : cs.length ≤ n) :
    readMembers n first d cs = (d.takeAll ms).map fun d => (d, rest) := by
  -- Every member is read from the place where the one before it ended, into the draft it left.
  induction h generalizing d n with
  | close hname =>
    have hlen := Json.length_of_nextName hname
    obtain ⟨n, rfl⟩ : ∃ k, n = k + 1 := Nat.exists_eq_add_one.mpr (by omega)
    simp only [readMembers, hname]
    rfl
  | @member first cs left behind middle rest name v ms hname hcolon hvalue hms ih =>
    have hlen := Json.length_of_nextName hname
    have hlen' := Json.length_of_colon hcolon
    have hlen'' := Json.length_of_value hvalue
    obtain ⟨n, rfl⟩ : ∃ k, n = k + 1 := Nat.exists_eq_add_one.mpr (by omega)
    simp only [readMembers, hname, bind, Except.bind, readMember_eq d name hcolon hvalue,
      Draft.takeAll, List.foldlM_cons]
    cases d.take (name, v) with
    | error e => rfl
    | ok d' => exact ih d' (by omega)

theorem exists_members_of_readMembers {n : Nat} {first : Bool} {d d' : Draft} {cs rest : List Char}
    (h : readMembers n first d cs = .ok (d', rest)) :
    ∃ ms, ReadsMembers (Json.maxLevels - 1) first cs ms rest := by
  induction n generalizing first d cs with
  | zero => cases h
  | succ n ih =>
    obtain ⟨⟨name, left⟩, hname, h⟩ := Json.bind_eq_ok_iff.mp h
    cases name with
    | none =>
      cases h
      exact ⟨[], .close hname⟩
    | some name =>
      obtain ⟨⟨d₁, middle⟩, hmember, h⟩ := Json.bind_eq_ok_iff.mp h
      obtain ⟨behind, v, hcolon, hvalue⟩ := exists_value_of_readMember hmember
      obtain ⟨ms, hms⟩ := ih h
      exact ⟨(name, v) :: ms, .member hname hcolon hvalue hms⟩

/-! ### Whole texts -/

/-- **The text of an object is read as the report that its members make.** -/
theorem parse_of_object {s : String} {ms : List (String × Value)}
    (h : Json.parse s = .ok (.object ms)) : parse s = ofObject ms := by
  obtain ⟨front, cs, rest, hfront, hrest, rfl, hms⟩ := Json.parse_eq_object_iff.mp h
  have hread := readMembers_eq hms .empty (Nat.le_succ _)
  have hfinish := Json.finish_eq_ok_iff.mpr hrest
  rw [parse, String.toList_ofList, read, Json.skipBlanks_append hfront (by decide)]
  simp only [hread, ofObject, bind, Except.bind]
  cases Draft.empty.takeAll ms with
  | error e => rfl
  | ok d =>
    simp only [Except.map]
    cases ofDraft d with
    | error e => rfl
    | ok r => simp only [hfinish]

/-- **Only the text of an object is read as a report.** -/
theorem exists_object_of_parse {s : String} {r : Report} (h : parse s = .ok r) :
    ∃ ms, Json.parse s = .ok (.object ms) := by
  obtain ⟨⟨r', rest⟩, hread, h⟩ := Json.bind_eq_ok_iff.mp h
  obtain ⟨⟨⟩, hfinish, -⟩ := Json.bind_eq_ok_iff.mp h
  unfold read at hread
  split at hread
  · next cs hskip =>
    obtain ⟨⟨d, left⟩, hmembers, hread⟩ := Json.bind_eq_ok_iff.mp hread
    obtain ⟨_, -, heq⟩ := Json.bind_eq_ok_iff.mp hread
    cases heq
    obtain ⟨ms, hms⟩ := exists_members_of_readMembers hmembers
    obtain ⟨-, front, hfront, hs⟩ := Json.skipBlanks_eq_cons hskip
    refine ⟨ms, Json.parse_eq_object_iff.mpr ⟨front, cs, rest, hfront, ?_, ?_, hms⟩⟩
    · exact Json.finish_eq_ok_iff.mp hfinish
    · rw [← hs, String.ofList_toList]
  · unfold expecting at hread
    split at hread
    · cases hread
    · cases hread
    · obtain ⟨_, -, hread⟩ := Json.bind_eq_ok_iff.mp hread
      cases hread

end Report

end ShaderReport
