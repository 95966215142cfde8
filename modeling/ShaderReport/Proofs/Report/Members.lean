import Mathlib.Tactic.MkIffOfInductiveProp
import ShaderReport.Proofs.Report.Draft

/-!
# The members of a report, looked up by their names

A report is read with some of its members taken as soon as they are met and the others kept for
later, and those are looked up twice.  `ofObject_eq_ok_iff` says that all this comes to looking every
member up by its name (`ofMembers`): a report is read off the members of an object just when each
member that it asks for is there exactly once and holds its part.

A look-up does not see the order of the members (`theMember_perm`), nor any member of another name.
What members do to a draft is stated place by place (`Fills`, `Draft.Grows`), because a member changes
one place of the draft only.
-/

namespace ShaderReport

open Json (Value ReadError Member Blank objectText)

/-! ### Looking members up -/

theorem theMember_eq_ok_iff {name : String} {ms : List (String × Value)} {v : Value} :
    theMember name ms = .ok v ↔ ms.filter (·.1 = name) = [(name, v)] := by
  rw [theMember]
  constructor
  · intro h
    split at h
    · next n w heq =>
      cases h
      have hmem : (n, v) ∈ ms.filter (·.1 = name) := by
        rw [heq]
        exact List.mem_singleton_self _
      have hname : n = name := by simpa using (List.mem_filter.mp hmem).2
      rw [heq, hname]
    · cases h
  · intro h
    rw [h]

theorem theMember_perm {ms ms' : List (String × Value)} (h : ms'.Perm ms) (name : String) :
    theMember name ms' = theMember name ms := by
  have hfilter := h.filter fun m => m.1 = name
  rw [theMember, theMember]
  generalize ms'.filter (·.1 = name) = as at hfilter
  generalize ms.filter (·.1 = name) = bs at hfilter
  match bs with
  | [] => rw [hfilter.eq_nil]
  | [b] => rw [hfilter.eq_singleton]
  | b :: b' :: bs =>
    have hlen := hfilter.length_eq
    match as with
    | [] => rfl
    | [a] => simp at hlen
    | a :: a' :: as => rfl

theorem theMember_append_left {name : String} {foreign ms : List (String × Value)}
    (h : ∀ m ∈ foreign, m.1 ≠ name) : theMember name (foreign ++ ms) = theMember name ms := by
  have hnil : foreign.filter (·.1 = name) = [] :=
    List.filter_eq_nil_iff.mpr fun m hm => by simpa using h m hm
  rw [theMember, List.filter_append, hnil, List.nil_append]
  rfl

/-- The members that state an analysis. -/
def Analysis.memberNames : List String :=
  ["line-count", "passes", "entry-points", "kernels", "keyword-sets", "material-keywords",
    "texture-slots"]

theorem Analysis.ofMembers_congr {ms ms' : List (String × Value)}
    (h : ∀ name ∈ memberNames, theMember name ms' = theMember name ms) :
    ofMembers ms' = ofMembers ms := by
  simp only [memberNames, List.forall_mem_cons] at h
  obtain ⟨h1, h2, h3, h4, h5, h6, h7, -⟩ := h
  rw [ofMembers, ofMembers, h1, h2, h3, h4, h5, h6, h7]

/-- The members that state a status. -/
def Status.memberNames : Status → List String
  | .succeeded => ["status"]
  | .failed _ => ["status", "error"]

theorem Status.ofMembers_congr {ms ms' : List (String × Value)}
    (hstatus : theMember "status" ms' = theMember "status" ms)
    (herror : theMember "error" ms' = theMember "error" ms) : ofMembers ms' = ofMembers ms := by
  rw [ofMembers, ofMembers, hstatus, herror]

namespace Report

/-- The members that are read as soon as they are met. -/
def ownNames : List String :=
  ["asset", "asset-kind", "build-target", "variant-count"]

/-- The members that may count for a report. -/
def memberNames : List String :=
  ownNames ++ ["status", "error"] ++ Analysis.memberNames

/-- The members that a report of the given status must have. -/
def requiredNames (status : Status) : List String :=
  ownNames ++ status.memberNames ++ Analysis.memberNames

/-- The report that the members of an object make, each of them looked up by its name. -/
def ofMembers (ms : List (String × Value)) : Except ReadError Report := do
  let asset ← theMember "asset" ms >>= stringOf
  let kind ← theMember "asset-kind" ms >>= AssetKind.ofJson
  let target ← theMember "build-target" ms >>= stringOf
  let variantCount ← theMember "variant-count" ms >>= Count.ofJson
  let status ← Status.ofMembers ms
  let analysis ← Analysis.ofMembers ms
  .ok ⟨.ofString asset, kind, ⟨target⟩, status, variantCount, analysis⟩

/-! ### Drafts and look-ups -/

/-- Whether members fill a place with the part they hold, one at most. -/
def Fills {α : Type} (name : String) (accept : Value → Except ReadError α)
    (ms : List (String × Value)) (place place' : Option α) : Prop :=
  ∃ as, (ms.filter (·.1 = name)).mapM (fun m => accept m.2) = .ok as ∧
    place.toList ++ as = place'.toList

section

variable {α : Type} {name : String} {accept : Value → Except ReadError α}
  {ms : List (String × Value)} {place place' : Option α}

theorem fills_nil : Fills name accept [] place place' ↔ place' = place := by
  constructor
  · rintro ⟨as, has, hplace⟩
    cases has
    cases place <;> cases place' <;> simp_all
  · rintro rfl
    exact ⟨[], rfl, List.append_nil _⟩

theorem fills_cons_of_ne {m : String × Value} (h : m.1 ≠ name) :
    Fills name accept (m :: ms) place place' ↔ Fills name accept ms place place' := by
  rw [Fills, List.filter_cons_of_neg (by simpa using h)]
  rfl

theorem fills_cons_of_eq {m : String × Value} (h : m.1 = name) :
    Fills name accept (m :: ms) place place' ↔
      place = none ∧ ∃ a, accept m.2 = .ok a ∧ Fills name accept ms (some a) place' := by
  rw [Fills, List.filter_cons_of_pos (by simpa using h)]
  simp only [List.mapM_cons]
  constructor
  · rintro ⟨as, has, hplace⟩
    obtain ⟨a, ha, has⟩ := Json.bind_eq_ok_iff.mp has
    obtain ⟨as', has', heq⟩ := Json.bind_eq_ok_iff.mp has
    cases heq
    cases place with
    | none => exact ⟨rfl, a, ha, as', has', hplace⟩
    | some b => cases place' <;> simp at hplace
  · rintro ⟨rfl, a, ha, as, has, hplace⟩
    refine ⟨a :: as, ?_, hplace⟩
    exact Json.bind_eq_ok_iff.mpr ⟨a, ha, Json.bind_eq_ok_iff.mpr ⟨as, has, rfl⟩⟩

theorem mapM_eq_singleton_iff {β : Type} {f : α → Except ReadError β} {as : List α} {b : β} :
    as.mapM f = .ok [b] ↔ ∃ a, as = [a] ∧ f a = .ok b := by
  constructor
  · intro h
    match as with
    | [] => cases h
    | [a] =>
      rw [List.mapM_cons] at h
      obtain ⟨b', hb, h⟩ := Json.bind_eq_ok_iff.mp h
      cases h
      exact ⟨a, rfl, hb⟩
    | a :: a' :: as =>
      rw [List.mapM_cons, List.mapM_cons] at h
      obtain ⟨b', -, h⟩ := Json.bind_eq_ok_iff.mp h
      obtain ⟨bs, hbs, h⟩ := Json.bind_eq_ok_iff.mp h
      obtain ⟨b'', -, hbs⟩ := Json.bind_eq_ok_iff.mp hbs
      obtain ⟨bs', -, hbs⟩ := Json.bind_eq_ok_iff.mp hbs
      cases hbs
      cases h
  · rintro ⟨a, rfl, ha⟩
    rw [List.mapM_cons, ha]
    rfl

theorem fills_some_iff {a : α} :
    Fills name accept ms none (some a) ↔ theMember name ms >>= accept = .ok a := by
  rw [Json.bind_eq_ok_iff]
  constructor
  · rintro ⟨as, has, hplace⟩
    cases hplace
    obtain ⟨m, hm, ha⟩ := mapM_eq_singleton_iff.mp has
    refine ⟨m.2, ?_, ha⟩
    rw [theMember, hm]
  · rintro ⟨v, hv, ha⟩
    exact ⟨[a], mapM_eq_singleton_iff.mpr ⟨_, theMember_eq_ok_iff.mp hv, ha⟩, rfl⟩

end

/-- Whether members, put into a draft one after the other, make another draft of it. -/
@[mk_iff]
structure Draft.Grows (d : Draft) (ms : List (String × Value)) (d' : Draft) : Prop where
  asset : Fills "asset" stringOf ms d.asset d'.asset
  assetKind : Fills "asset-kind" AssetKind.ofJson ms d.assetKind d'.assetKind
  target : Fills "build-target" stringOf ms d.target d'.target
  variantCount : Fills "variant-count" Count.ofJson ms d.variantCount d'.variantCount
  others : d'.others = d.others ++ ms.filter (·.1 ∉ ownNames)

theorem takeInto_bind_eq_ok_iff {α : Type} {place : Option α} {part : Except ReadError α}
    {put : α → Draft} {k : Draft → Except ReadError Draft} {d : Draft} :
    takeInto place part put >>= k = .ok d ↔ place = none ∧ ∃ a, part = .ok a ∧ k (put a) = .ok d := by
  cases place with
  | some a => simp [takeInto, bind, Except.bind]
  | none => cases part <;> simp [takeInto, Except.map, bind, Except.bind]

theorem takeAll_cons (d : Draft) (m : String × Value) (ms : List (String × Value)) :
    d.takeAll (m :: ms) = d.take m >>= fun d => d.takeAll ms :=
  List.foldlM_cons

theorem take_bind_eq_ok_iff {d d' : Draft} {m : String × Value} {ms : List (String × Value)}
    (ih : ∀ {d : Draft}, d.takeAll ms = .ok d' ↔ d.Grows ms d') :
    (d.take m >>= fun d => d.takeAll ms) = .ok d' ↔ d.Grows (m :: ms) d' := by
  have hown : m.1 ∈ ownNames → (m :: ms).filter (·.1 ∉ ownNames) = ms.filter (·.1 ∉ ownNames) :=
    fun h => List.filter_cons_of_neg (by simpa using h)
  -- Four names have a place of their own; a member of such a name leaves the other places alone.
  rw [Draft.grows_iff]
  unfold Draft.take
  by_cases h1 : m.1 = "asset"
  · rw [hown (by simp [ownNames, h1]), fills_cons_of_eq h1, fills_cons_of_ne (by simp [h1]),
      fills_cons_of_ne (by simp [h1]), fills_cons_of_ne (by simp [h1]), if_pos h1]
    simp only [takeInto_bind_eq_ok_iff, ih, Draft.grows_iff]
    grind
  rw [if_neg h1, fills_cons_of_ne h1]
  by_cases h2 : m.1 = "asset-kind"
  · rw [hown (by simp [ownNames, h2]), fills_cons_of_eq h2, fills_cons_of_ne (by simp [h2]),
      fills_cons_of_ne (by simp [h2]), if_pos h2]
    simp only [takeInto_bind_eq_ok_iff, ih, Draft.grows_iff]
    grind
  rw [if_neg h2, fills_cons_of_ne h2]
  by_cases h3 : m.1 = "build-target"
  · rw [hown (by simp [ownNames, h3]), fills_cons_of_eq h3, fills_cons_of_ne (by simp [h3]),
      if_pos h3]
    simp only [takeInto_bind_eq_ok_iff, ih, Draft.grows_iff]
    grind
  rw [if_neg h3, fills_cons_of_ne h3]
  by_cases h4 : m.1 = "variant-count"
  · rw [hown (by simp [ownNames, h4]), fills_cons_of_eq h4, if_pos h4]
    simp only [takeInto_bind_eq_ok_iff, ih, Draft.grows_iff]
    grind
  have hother : m.1 ∉ ownNames := by simp [ownNames, h1, h2, h3, h4]
  rw [if_neg h4, fills_cons_of_ne h4, List.filter_cons_of_pos (by simpa using hother)]
  simp only [bind, Except.bind, ih, Draft.grows_iff, List.append_assoc, List.singleton_append]

/-- **Members are taken into a draft just when each of its places is filled once at most.** -/
theorem takeAll_eq_ok_iff {d d' : Draft} {ms : List (String × Value)} :
    d.takeAll ms = .ok d' ↔ d.Grows ms d' := by
  induction ms generalizing d with
  | nil =>
    rw [Draft.grows_iff, fills_nil, fills_nil, fills_nil, fills_nil]
    cases d
    cases d'
    simp [Draft.takeAll, pure, Except.pure, eq_comm]
  | cons m ms ih =>
    rw [takeAll_cons]
    exact take_bind_eq_ok_iff ih

/-! ### Reports by look-up -/

theorem ofMembers_congr {ms ms' : List (String × Value)}
    (h : ∀ name ∈ memberNames, theMember name ms' = theMember name ms) :
    ofMembers ms' = ofMembers ms := by
  have hanalysis : Analysis.ofMembers ms' = Analysis.ofMembers ms :=
    Analysis.ofMembers_congr fun name hname => h name (by simp [memberNames, hname])
  have hstatus : Status.ofMembers ms' = Status.ofMembers ms :=
    Status.ofMembers_congr (h _ (by simp [memberNames])) (h _ (by simp [memberNames]))
  rw [ofMembers, ofMembers, hanalysis, hstatus, h "asset" (by simp [memberNames, ownNames]),
    h "asset-kind" (by simp [memberNames, ownNames]),
    h "build-target" (by simp [memberNames, ownNames]),
    h "variant-count" (by simp [memberNames, ownNames])]

theorem theMember_others {name : String} (h : name ∉ ownNames) (ms : List (String × Value)) :
    theMember name (ms.filter (·.1 ∉ ownNames)) = theMember name ms := by
  have hfilter : (ms.filter (·.1 ∉ ownNames)).filter (·.1 = name) = ms.filter (·.1 = name) := by
    rw [List.filter_filter]
    refine List.filter_congr fun m _ => ?_
    by_cases hm : m.1 = name
    · simp [hm, h]
    · simp [hm]
  rw [theMember, hfilter]
  rfl

theorem status_others (ms : List (String × Value)) :
    Status.ofMembers (ms.filter (·.1 ∉ ownNames)) = Status.ofMembers ms :=
  Status.ofMembers_congr (theMember_others (by decide) ms) (theMember_others (by decide) ms)

theorem analysis_others (ms : List (String × Value)) :
    Analysis.ofMembers (ms.filter (·.1 ∉ ownNames)) = Analysis.ofMembers ms := by
  refine Analysis.ofMembers_congr ?_
  intro name hname
  refine theMember_others ?_ ms
  revert name
  decide

/-- **The members of a report are looked up by their names.** -/
theorem ofObject_eq_ok_iff {ms : List (String × Value)} {r : Report} :
    ofObject ms = .ok r ↔ ofMembers ms = .ok r := by
  constructor
  · intro h
    obtain ⟨d, hd, hr⟩ := Json.bind_eq_ok_iff.mp h
    obtain ⟨hasset, hkind, htarget, hcount, hothers⟩ := takeAll_eq_ok_iff.mp hd
    unfold ofDraft at hr
    split at hr
    · next asset kind target variantCount h1 h2 h3 h4 =>
      rw [h1] at hasset
      rw [h2] at hkind
      rw [h3] at htarget
      rw [h4] at hcount
      rw [hothers, Draft.empty, List.nil_append, status_others, analysis_others] at hr
      rw [ofMembers, fills_some_iff.mp hasset, fills_some_iff.mp hkind, fills_some_iff.mp htarget,
        fills_some_iff.mp hcount]
      exact hr
    · cases hr
  · intro h
    obtain ⟨asset, hasset, h⟩ := Json.bind_eq_ok_iff.mp h
    obtain ⟨kind, hkind, h⟩ := Json.bind_eq_ok_iff.mp h
    obtain ⟨target, htarget, h⟩ := Json.bind_eq_ok_iff.mp h
    obtain ⟨variantCount, hcount, h⟩ := Json.bind_eq_ok_iff.mp h
    have hgrows : Draft.empty.Grows ms ⟨some asset, some kind, some target, some variantCount,
        ms.filter (·.1 ∉ ownNames)⟩ :=
      ⟨fills_some_iff.mpr hasset, fills_some_iff.mpr hkind, fills_some_iff.mpr htarget,
        fills_some_iff.mpr hcount, rfl⟩
    refine Json.bind_eq_ok_iff.mpr ⟨_, takeAll_eq_ok_iff.mpr hgrows, ?_⟩
    rw [ofDraft, status_others, analysis_others]
    exact h

end Report

end ShaderReport
