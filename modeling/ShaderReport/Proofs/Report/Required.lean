import ShaderReport.Proofs.Report.Members
import ShaderReport.Proofs.Report.RoundTrip

/-!
# The members a report must have

The text of a report is a row of members, and `parse_row_of_members` says what may be done to that row.
The members may be put in another order, and members that no report asks for may be put among them: the
same report is read.  A member that the report must have (`requiredNames`) may neither be left out nor
be there twice: the text is refused as one that does not hold what was asked for.

A report needs every required member because each is looked up (`exists_theMember`), and once at most
because a look-up finds nothing if there are two (`not_theMember_cons`).  Whether the message of a
failure is required depends on the status, which stays the same while its own member does
(`ofMembers_ne_ok`).  That the text is refused for no other reason is a law of its own, kept by one step
after the other (`OnlyMismatch`): only a kind of assets may be malformed, and a report has a proper one.
-/

namespace ShaderReport

open Json (Value ReadError Member Blank objectText)

namespace Report

/-! ### Members that must be there -/

theorem theMember_bind_eq_ok {α β : Type} {name : String} {ms : List (String × Value)}
    {accept : Value → Except ReadError α} {k : α → Except ReadError β} {b : β}
    (h : (do k (← accept (← theMember name ms))) = .ok b) :
    (∃ v, theMember name ms = .ok v) ∧ ∃ a, k a = .ok b := by
  obtain ⟨v, hv, h⟩ := Json.bind_eq_ok_iff.mp h
  obtain ⟨a, -, h⟩ := Json.bind_eq_ok_iff.mp h
  exact ⟨⟨v, hv⟩, a, h⟩

theorem exists_theMember_of_analysis {ms : List (String × Value)} {a : Analysis}
    (h : Analysis.ofMembers ms = .ok a) :
    ∀ name ∈ Analysis.memberNames, ∃ v, theMember name ms = .ok v := by
  obtain ⟨h1, _, h⟩ := theMember_bind_eq_ok h
  obtain ⟨h2, _, h⟩ := theMember_bind_eq_ok h
  obtain ⟨h3, _, h⟩ := theMember_bind_eq_ok h
  obtain ⟨h4, _, h⟩ := theMember_bind_eq_ok h
  obtain ⟨h5, _, h⟩ := theMember_bind_eq_ok h
  obtain ⟨h6, _, h⟩ := theMember_bind_eq_ok h
  obtain ⟨h7, _, -⟩ := theMember_bind_eq_ok h
  simp only [Analysis.memberNames, List.forall_mem_cons]
  exact ⟨h1, h2, h3, h4, h5, h6, h7, by simp⟩

theorem memberNames_of_status {ms : List (String × Value)} {status : Status}
    (h : Status.ofMembers ms = .ok status) : ∃ tag, theMember "status" ms = .ok tag ∧
      status.memberNames =
        (if tag = .string "succeeded" ∨ tag = .ofNat 0 then ["status"] else ["status", "error"]) ∧
      ∀ name ∈ status.memberNames, ∃ v, theMember name ms = .ok v := by
  obtain ⟨tag, htag, h⟩ := Json.bind_eq_ok_iff.mp h
  refine ⟨tag, htag, ?_⟩
  split at h
  · next hsucceeded =>
    cases h
    rw [if_pos hsucceeded]
    exact ⟨rfl, by simpa [Status.memberNames] using ⟨tag, htag⟩⟩
  · next hsucceeded =>
    rw [if_neg hsucceeded]
    split at h
    · obtain ⟨v, hv, h⟩ := Json.bind_eq_ok_iff.mp h
      obtain ⟨e, -, h⟩ := Json.bind_eq_ok_iff.mp h
      cases h
      exact ⟨rfl, by simpa [Status.memberNames] using ⟨⟨tag, htag⟩, ⟨v, hv⟩⟩⟩
    · cases h

theorem parts_of_ofMembers {ms : List (String × Value)} {r : Report} (h : ofMembers ms = .ok r) :
    (∀ name ∈ ownNames, ∃ v, theMember name ms = .ok v) ∧ Status.ofMembers ms = .ok r.status ∧
      Analysis.ofMembers ms = .ok r.analysis := by
  obtain ⟨asset, hasset, h⟩ := Json.bind_eq_ok_iff.mp h
  obtain ⟨kind, hkind, h⟩ := Json.bind_eq_ok_iff.mp h
  obtain ⟨target, htarget, h⟩ := Json.bind_eq_ok_iff.mp h
  obtain ⟨variantCount, hcount, h⟩ := Json.bind_eq_ok_iff.mp h
  obtain ⟨status, hstatus, h⟩ := Json.bind_eq_ok_iff.mp h
  obtain ⟨analysis, hanalysis, h⟩ := Json.bind_eq_ok_iff.mp h
  cases h
  refine ⟨?_, hstatus, hanalysis⟩
  obtain ⟨v1, h1, -⟩ := Json.bind_eq_ok_iff.mp hasset
  obtain ⟨v2, h2, -⟩ := Json.bind_eq_ok_iff.mp hkind
  obtain ⟨v3, h3, -⟩ := Json.bind_eq_ok_iff.mp htarget
  obtain ⟨v4, h4, -⟩ := Json.bind_eq_ok_iff.mp hcount
  simp only [ownNames, List.forall_mem_cons]
  exact ⟨⟨v1, h1⟩, ⟨v2, h2⟩, ⟨v3, h3⟩, ⟨v4, h4⟩, by simp⟩

theorem exists_theMember {ms : List (String × Value)} {r : Report} (h : ofMembers ms = .ok r) :
    ∀ name ∈ requiredNames r.status, ∃ v, theMember name ms = .ok v := by
  obtain ⟨hown, hstatus, hanalysis⟩ := parts_of_ofMembers h
  obtain ⟨tag, -, -, hnames⟩ := memberNames_of_status hstatus
  intro name hname
  rcases List.mem_append.mp hname with hname | hname
  · rcases List.mem_append.mp hname with hname | hname
    · exact hown name hname
    · exact hnames name hname
  · exact exists_theMember_of_analysis hanalysis name hname

theorem ofMembers_ne_ok {ms ms' : List (String × Value)} {r : Report} (h : ofMembers ms = .ok r)
    {name : String} (hname : name ∈ requiredNames r.status)
    (hothers : ∀ other, other ≠ name → theMember other ms' = theMember other ms)
    (hmiss : ∀ v, theMember name ms' ≠ .ok v) (r' : Report) : ofMembers ms' ≠ .ok r' := by
  intro h'
  have hrequired : requiredNames r'.status = requiredNames r.status ∨ name = "status" := by
    by_cases hstatus : name = "status"
    · exact .inr hstatus
    · obtain ⟨tag, htag, htags, -⟩ := memberNames_of_status (parts_of_ofMembers h).2.1
      obtain ⟨tag', htag', htags', -⟩ := memberNames_of_status (parts_of_ofMembers h').2.1
      rw [hothers "status" (Ne.symm hstatus), htag] at htag'
      cases htag'
      rw [requiredNames, requiredNames, htags, htags']
      exact .inl rfl
  have hname' : name ∈ requiredNames r'.status := by
    rcases hrequired with heq | rfl
    · rwa [heq]
    · cases hstatus : r'.status <;> simp [requiredNames, Status.memberNames]
  obtain ⟨v, hv⟩ := exists_theMember h' name hname'
  exact hmiss v hv

/-! ### Why members make no report -/

/-- Whether a text is refused only because it does not hold what was asked for. -/
def OnlyMismatch {α : Type} (x : Except ReadError α) : Prop :=
  ∀ e, x = .error e → e = .mismatch

theorem onlyMismatch_ok {α : Type} (a : α) : OnlyMismatch (.ok a) := by
  intro e h
  cases h

theorem onlyMismatch_mismatch {α : Type} : OnlyMismatch (.error .mismatch : Except ReadError α) := by
  intro e h
  cases h
  rfl

theorem OnlyMismatch.bind {α β : Type} {x : Except ReadError α} {f : α → Except ReadError β}
    (hx : OnlyMismatch x) (hf : ∀ a, OnlyMismatch (f a)) : OnlyMismatch (x >>= f) := by
  intro e h
  cases x with
  | error e' =>
    cases h
    exact hx e rfl
  | ok a => exact hf a e h

theorem OnlyMismatch.mapM {α β : Type} {f : α → Except ReadError β} (hf : ∀ a, OnlyMismatch (f a))
    (as : List α) : OnlyMismatch (as.mapM f) := by
  induction as with
  | nil => exact onlyMismatch_ok _
  | cons a as ih =>
    rw [List.mapM_cons]
    exact (hf a).bind fun b => ih.bind fun bs => onlyMismatch_ok _

theorem onlyMismatch_theMember (name : String) (ms : List (String × Value)) :
    OnlyMismatch (theMember name ms) := by
  unfold theMember
  split
  · exact onlyMismatch_ok _
  · exact onlyMismatch_mismatch

theorem onlyMismatch_stringOf (v : Value) : OnlyMismatch (stringOf v) := by
  unfold stringOf
  split
  · exact onlyMismatch_ok _
  · exact onlyMismatch_mismatch

theorem onlyMismatch_count (v : Value) : OnlyMismatch (Count.ofJson v) := by
  unfold Count.ofJson
  split
  · split
    · exact onlyMismatch_mismatch
    · split
      · exact onlyMismatch_ok _
      · exact onlyMismatch_mismatch
  · exact onlyMismatch_mismatch

theorem onlyMismatch_listOf {α : Type} {item : Value → Except ReadError α}
    (h : ∀ v, OnlyMismatch (item v)) (v : Value) : OnlyMismatch (listOf item v) := by
  unfold listOf
  split
  · exact OnlyMismatch.mapM h _
  · exact onlyMismatch_mismatch

theorem onlyMismatch_keywordSet (v : Value) : OnlyMismatch (KeywordSet.ofJson v) := by
  have hlist := onlyMismatch_listOf onlyMismatch_stringOf
  unfold KeywordSet.ofJson
  split
  · refine (onlyMismatch_theMember _ _).bind fun v => (onlyMismatch_stringOf v).bind fun s => ?_
    refine (onlyMismatch_theMember _ _).bind fun v => (hlist v).bind fun ss => ?_
    exact onlyMismatch_ok _
  · refine (onlyMismatch_stringOf _).bind fun s => (hlist _).bind fun ss => ?_
    exact onlyMismatch_ok _
  · exact onlyMismatch_mismatch

theorem onlyMismatch_analysis (ms : List (String × Value)) : OnlyMismatch (Analysis.ofMembers ms) := by
  have hlist := onlyMismatch_listOf onlyMismatch_stringOf
  have hsets := onlyMismatch_listOf onlyMismatch_keywordSet
  refine (onlyMismatch_theMember _ _).bind fun v => (onlyMismatch_count v).bind fun _ => ?_
  refine (onlyMismatch_theMember _ _).bind fun v => (onlyMismatch_count v).bind fun _ => ?_
  refine (onlyMismatch_theMember _ _).bind fun v => (hlist v).bind fun _ => ?_
  refine (onlyMismatch_theMember _ _).bind fun v => (hlist v).bind fun _ => ?_
  refine (onlyMismatch_theMember _ _).bind fun v => (hsets v).bind fun _ => ?_
  refine (onlyMismatch_theMember _ _).bind fun v => (hlist v).bind fun _ => ?_
  refine (onlyMismatch_theMember _ _).bind fun v => (onlyMismatch_count v).bind fun _ => ?_
  exact onlyMismatch_ok _

theorem onlyMismatch_status (ms : List (String × Value)) : OnlyMismatch (Status.ofMembers ms) := by
  refine (onlyMismatch_theMember _ _).bind fun tag => ?_
  split
  · exact onlyMismatch_ok _
  split
  · refine (onlyMismatch_theMember _ _).bind fun v => (onlyMismatch_stringOf v).bind fun e => ?_
    exact onlyMismatch_ok _
  · exact onlyMismatch_mismatch

theorem onlyMismatch_takeInto {α : Type} {place : Option α} {part : Except ReadError α}
    (h : OnlyMismatch part) (put : α → Draft) : OnlyMismatch (takeInto place part put) := by
  unfold takeInto
  split
  · exact onlyMismatch_mismatch
  · intro e he
    cases part with
    | error e' =>
      cases he
      exact h e rfl
    | ok a => cases he

theorem onlyMismatch_take (d : Draft) {m : String × Value}
    (h : m.1 = "asset-kind" → OnlyMismatch (AssetKind.ofJson m.2)) : OnlyMismatch (d.take m) := by
  unfold Draft.take
  split
  · exact onlyMismatch_takeInto (onlyMismatch_stringOf _) _
  split
  · next hkind => exact onlyMismatch_takeInto (h hkind) _
  split
  · exact onlyMismatch_takeInto (onlyMismatch_stringOf _) _
  split
  · exact onlyMismatch_takeInto (onlyMismatch_count _) _
  · exact onlyMismatch_ok _

theorem onlyMismatch_takeAll (d : Draft) {ms : List (String × Value)}
    (h : ∀ m ∈ ms, m.1 = "asset-kind" → OnlyMismatch (AssetKind.ofJson m.2)) :
    OnlyMismatch (d.takeAll ms) := by
  induction ms generalizing d with
  | nil => exact onlyMismatch_ok d
  | cons m ms ih =>
    obtain ⟨hm, hms⟩ := List.forall_mem_cons.mp h
    rw [takeAll_cons]
    exact (onlyMismatch_take d hm).bind fun d => ih d hms

/-- **Members make no report for a mismatch only**, unless one of them is no kind of assets at all. -/
theorem onlyMismatch_ofObject {ms : List (String × Value)}
    (h : ∀ m ∈ ms, m.1 = "asset-kind" → OnlyMismatch (AssetKind.ofJson m.2)) :
    OnlyMismatch (ofObject ms) := by
  refine (onlyMismatch_takeAll _ h).bind fun d => ?_
  unfold ofDraft
  split
  · refine (onlyMismatch_status _).bind fun status => ?_
    exact (onlyMismatch_analysis _).bind fun analysis => onlyMismatch_ok _
  · exact onlyMismatch_mismatch

/-! ### One member more, or one less -/

theorem theMember_cons_of_ne {m : String × Value} {name : String} (h : m.1 ≠ name)
    (ms : List (String × Value)) : theMember name (m :: ms) = theMember name ms := by
  rw [theMember, List.filter_cons_of_neg (by simpa using h)]
  rfl

theorem not_theMember_cons {m : String × Value} {name : String} (h : m.1 = name)
    {ms : List (String × Value)} {v w : Value} (hv : theMember name (m :: ms) = .ok v) :
    theMember name ms ≠ .ok w := by
  intro hw
  have hcons := theMember_eq_ok_iff.mp hv
  rw [List.filter_cons_of_pos (by simpa using h), theMember_eq_ok_iff.mp hw] at hcons
  simp at hcons

theorem exists_kind {ms : List (String × Value)} {r : Report} (h : ofMembers ms = .ok r)
    {m : String × Value} (hm : m ∈ ms) (hname : m.1 = "asset-kind") :
    ∃ kind, AssetKind.ofJson m.2 = .ok kind := by
  obtain ⟨_, -, h⟩ := Json.bind_eq_ok_iff.mp h
  obtain ⟨kind, hkind, -⟩ := Json.bind_eq_ok_iff.mp h
  obtain ⟨v, hv, hkind⟩ := Json.bind_eq_ok_iff.mp hkind
  have hmem : m ∈ ms.filter (·.1 = "asset-kind") := List.mem_filter.mpr ⟨hm, by simpa using hname⟩
  rw [theMember_eq_ok_iff.mp hv, List.mem_singleton] at hmem
  rw [hmem]
  exact ⟨kind, hkind⟩

theorem ofObject_refused {ms ms' : List (String × Value)} {r : Report} (h : ofMembers ms = .ok r)
    {name : String} (hname : name ∈ requiredNames r.status)
    (hothers : ∀ other, other ≠ name → theMember other ms' = theMember other ms)
    (hmiss : ∀ v, theMember name ms' ≠ .ok v) (hkinds : ∀ m ∈ ms', m.1 = "asset-kind" →
      ∃ kind, AssetKind.ofJson m.2 = .ok kind) : ofObject ms' = .error .mismatch := by
  have honly : OnlyMismatch (ofObject ms') := by
    refine onlyMismatch_ofObject ?_
    intro m hm hname
    obtain ⟨kind, hkind⟩ := hkinds m hm hname
    rw [hkind]
    exact onlyMismatch_ok kind
  cases hr : ofObject ms' with
  | error e => rw [honly e hr]
  | ok r' => exact absurd (ofObject_eq_ok_iff.mp hr) (ofMembers_ne_ok h hname hothers hmiss r')

theorem ofObject_without {xs ys : List (String × Value)} {m : String × Value} {r : Report}
    (h : ofMembers (xs ++ m :: ys) = .ok r) (hname : m.1 ∈ requiredNames r.status) :
    ofObject (xs ++ ys) = .error .mismatch := by
  have hperm : (xs ++ m :: ys).Perm (m :: (xs ++ ys)) := List.perm_middle
  obtain ⟨v, hv⟩ := exists_theMember h m.1 hname
  rw [theMember_perm hperm] at hv
  refine ofObject_refused h hname ?_ (fun w => not_theMember_cons rfl hv) ?_
  · intro other hother
    rw [theMember_perm hperm, theMember_cons_of_ne (Ne.symm hother)]
  · intro l hl hkind
    exact exists_kind h (hperm.mem_iff.mpr (List.mem_cons_of_mem m hl)) hkind

theorem ofObject_twice {xs ys : List (String × Value)} {m m' : String × Value} {r : Report}
    (h : ofMembers (xs ++ ys) = .ok r) (hm : m ∈ xs ++ ys) (hname : m'.1 = m.1)
    (hrequired : m.1 ∈ requiredNames r.status) (hvalue : m.1 = "asset-kind" → m'.2 = m.2) :
    ofObject (xs ++ m' :: ys) = .error .mismatch := by
  have hperm : (xs ++ m' :: ys).Perm (m' :: (xs ++ ys)) := List.perm_middle
  obtain ⟨v, hv⟩ := exists_theMember h m.1 hrequired
  refine ofObject_refused h hrequired ?_ ?_ ?_
  · intro other hother
    rw [theMember_perm hperm, theMember_cons_of_ne (by rw [hname]; exact Ne.symm hother)]
  · intro w hw
    rw [theMember_perm hperm] at hw
    exact not_theMember_cons hname hw hv
  · intro l hl hkind
    rcases List.mem_cons.mp (hperm.mem_iff.mp hl) with rfl | hl
    · rw [hname] at hkind
      rw [hvalue hkind]
      exact exists_kind h hm hkind
    · exact exists_kind h hl hkind

theorem ofObject_among {ms ms' foreign : List (String × Value)} {r : Report}
    (h : ofMembers ms = .ok r) (hforeign : ∀ m ∈ foreign, m.1 ∉ memberNames)
    (hperm : ms'.Perm (foreign ++ ms)) : ofObject ms' = .ok r := by
  rw [ofObject_eq_ok_iff, ← h]
  refine ofMembers_congr ?_
  intro name hname
  rw [theMember_perm hperm]
  refine theMember_append_left ?_
  rintro m hm rfl
  exact hforeign m hm hname

/-! ### Whole texts -/

theorem parse_row {front back : List Char} (hfront : Blank front) (hback : Blank back)
    (ms : List Member) :
    parse (objectText front ms back) = ofObject (ms.map Member.entry) :=
  parse_of_object (Json.parse_objectText hfront hback ms)

/-- **A report is read off its members, whatever their order and whatever stands among them, and off
nothing less or more.**  A text that is read as a report is a row of members.  It is read as the same
report with the members in another order and with any members among them whose names no report asks
for.  Every member that the report must have is in it, and it is refused without that member, and
refused with another one of that name in any place. -/
theorem parse_row_of_members {s : String} {r : Report} (h : parse s = .ok r) :
    (∃ front ms back, Blank front ∧ Blank back ∧ s = objectText front ms back) ∧
    ∀ (front back : List Char) (ms : List Member), Blank front → Blank back →
      s = objectText front ms back →
      (∀ foreign ms' : List Member, (∀ m ∈ foreign, m.name ∉ memberNames) →
        ms'.Perm (foreign ++ ms) → parse (objectText front ms' back) = .ok r) ∧
      ∀ name ∈ requiredNames r.status,
        (∃ m ∈ ms, m.name = name) ∧
        (∀ (xs ys : List Member) (m : Member), ms = xs ++ m :: ys → m.name = name →
          parse (objectText front (xs ++ ys) back) = .error .mismatch) ∧
        ∀ (xs ys : List Member) (m m' : Member), ms = xs ++ ys → m ∈ ms → m.name = name →
          m'.name = name → (name = "asset-kind" → m'.value = m.value) →
          parse (objectText front (xs ++ m' :: ys) back) = .error .mismatch := by
  constructor
  · obtain ⟨entries, hentries⟩ := exists_object_of_parse h
    rw [parse_of_object hentries] at h
    cases entries with
    | nil => cases h
    | cons m entries =>
      obtain ⟨front, ms, back, hfront, hback, hs, -⟩ := Json.exists_objectText hentries
      exact ⟨front, ms, back, hfront, hback, hs⟩
  · rintro front back ms hfront hback rfl
    rw [parse_row hfront hback] at h
    have hms := ofObject_eq_ok_iff.mp h
    refine ⟨?_, ?_⟩
    · intro foreign ms' hforeign hperm
      rw [parse_row hfront hback]
      have hperm' := hperm.map Member.entry
      rw [List.map_append] at hperm'
      refine ofObject_among hms ?_ hperm'
      intro m hm
      obtain ⟨l, hl, rfl⟩ := List.mem_map.mp hm
      exact hforeign l hl
    intro name hname
    refine ⟨?_, ?_, ?_⟩
    · obtain ⟨v, hv⟩ := exists_theMember hms name hname
      have hmem : (name, v) ∈ (ms.map Member.entry).filter (·.1 = name) := by
        rw [theMember_eq_ok_iff.mp hv]
        exact List.mem_singleton_self _
      obtain ⟨m, hm, heq⟩ := List.mem_map.mp (List.mem_filter.mp hmem).1
      exact ⟨m, hm, congrArg Prod.fst heq⟩
    · rintro xs ys m rfl rfl
      rw [parse_row hfront hback, List.map_append]
      rw [List.map_append, List.map_cons] at hms
      exact ofObject_without hms hname
    · rintro xs ys m m' rfl hm rfl hm' hvalue
      rw [parse_row hfront hback, List.map_append, List.map_cons]
      have hentry := List.mem_map_of_mem (f := Member.entry) hm
      rw [List.map_append] at hms hentry
      exact ofObject_twice hms hentry hm' hname hvalue

/-- The report of a failure. -/
def brick : Report :=
  ⟨.ofString "brick.mat", .material, ⟨"ios"⟩, .failed "gone", 1, .empty⟩

/-- The text of the report. -/
def brickText : String :=
  (Value.object (brick.members "brick.mat")).toCompact

/-- A member that no report asks for. -/
def note : Member :=
  ⟨"\"note\":[null]".toList, "note", .array [.null], by decide +kernel⟩

theorem parse_row_of_members_brick :
    parse brickText = .ok brick ∧
    ∃ front ms back, Blank front ∧ Blank back ∧ brickText = objectText front ms back ∧
      (∃ m ∈ ms, m.name = "error") ∧
      parse (objectText front (note :: ms.reverse) back) = .ok brick := by
  have hread : parse brickText = .ok brick :=
    parse_of_asset rfl (Json.spells_compact _ (readable_members brick "brick.mat"))
  refine ⟨hread, ?_⟩
  obtain ⟨⟨front, ms, back, hfront, hback, hs⟩, hrow⟩ := parse_row_of_members hread
  obtain ⟨hamong, hrequired⟩ := hrow front back ms hfront hback hs
  refine ⟨front, ms, back, hfront, hback, hs, (hrequired "error" (by decide)).1, ?_⟩
  refine hamong [note] (note :: ms.reverse) ?_ (ms.reverse_perm.cons note)
  intro m hm
  rw [List.mem_singleton.mp hm]
  decide

end Report

end ShaderReport
