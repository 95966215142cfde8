import ShaderReport.Proofs.Json.Locality

/-!
# The members of an object, as they stand in a text

The text of an object is a row of members with commas between them: `parse_objectText` reads such a
row, and `exists_objectText` finds it in every text that is read as an object.  A `Member` is cut out
of its text with the blanks around it, and what makes it one is that an object of this member alone
is read.  So members can be put in another order, left out, or taken from another text.

`ReadsMembers` is what the reader of the members of an object goes through, without its steps.
-/

namespace ShaderReport.Json

/-! ### Reading members one after the other -/

/-- What is read as the members of an object from here on, and what is left behind its closing
brace. -/
inductive ReadsMembers (levels : Nat) :
    Bool → List Char → List (String × Value) → List Char → Prop where
  | close {first : Bool} {cs rest : List Char} (hname : nextName first cs = .ok (none, rest)) :
      ReadsMembers levels first cs [] rest
  | member {first : Bool} {cs left behind middle rest : List Char} {name : String} {v : Value}
      {ms : List (String × Value)} (hname : nextName first cs = .ok (some name, left))
      (hcolon : colon left = .ok ((), behind)) (hvalue : value levels behind = .ok (v, middle))
      (hms : ReadsMembers levels false middle ms rest) :
      ReadsMembers levels first cs ((name, v) :: ms) rest

theorem readsMembers_of_within {steps levels : Nat} {first : Bool} {cs rest : List Char}
    {ms : List (String × Value)} (h : membersWithin steps levels first cs = .ok (ms, rest)) :
    ReadsMembers levels first cs ms rest := by
  induction steps generalizing first cs ms with
  | zero =>
    simp only [membersWithin] at h
    cases h
  | succ steps ih =>
    simp only [membersWithin] at h
    obtain ⟨⟨name, left⟩, hname, h⟩ := bind_eq_ok_iff.mp h
    cases name with
    | none =>
      cases h
      exact .close hname
    | some name =>
      obtain ⟨⟨_, behind⟩, hcolon, h⟩ := bind_eq_ok_iff.mp h
      obtain ⟨⟨v, middle⟩, hv, h⟩ := bind_eq_ok_iff.mp h
      obtain ⟨⟨ms', last⟩, hms, h⟩ := bind_eq_ok_iff.mp h
      cases h
      exact .member hname hcolon (value_of_valueWithin hv) (ih hms)

theorem length_of_nextName {first : Bool} {cs rest : List Char} {name : Option String}
    (h : nextName first cs = .ok (name, rest)) : rest.length < cs.length := by
  obtain ⟨c, used, rfl, -⟩ := (isLocal_nextName first).exists_cons (by intro a ha; cases ha) h
  rw [List.length_cons, List.length_append]
  omega

theorem length_of_colon {cs rest : List Char} (h : colon cs = .ok ((), rest)) :
    rest.length ≤ cs.length := by
  obtain ⟨used, rfl, -⟩ := isLocal_colon cs rest () h
  rw [List.length_append]
  omega

theorem length_of_value {levels : Nat} {cs rest : List Char} {v : Value}
    (h : value levels cs = .ok (v, rest)) : rest.length ≤ cs.length := by
  obtain ⟨used, rfl, -⟩ := value_local h
  rw [List.length_append]
  omega

theorem ReadsMembers.within {levels : Nat} {first : Bool} {cs rest : List Char}
    {ms : List (String × Value)} (h : ReadsMembers levels first cs ms rest) {steps : Nat}
    (hsteps : cs.length ≤ steps) : membersWithin steps levels first cs = .ok (ms, rest) := by
  induction h generalizing steps with
  | close hname =>
    have := length_of_nextName hname
    obtain ⟨steps, rfl⟩ : ∃ n, steps = n + 1 := Nat.exists_eq_add_one.mpr (by omega)
    rw [membersWithin]
    exact bind_eq_ok_iff.mpr ⟨_, hname, rfl⟩
  | member hname hcolon hvalue hms ih =>
    have hlen := length_of_nextName hname
    have hlen' := length_of_colon hcolon
    have hlen'' := length_of_value hvalue
    obtain ⟨steps, rfl⟩ : ∃ n, steps = n + 1 := Nat.exists_eq_add_one.mpr (by omega)
    rw [membersWithin]
    refine bind_eq_ok_iff.mpr ⟨_, hname, ?_⟩
    refine bind_eq_ok_iff.mpr ⟨_, hcolon, ?_⟩
    refine bind_eq_ok_iff.mpr ⟨_, valueWithin_of_length_le hvalue (by omega), ?_⟩
    exact bind_eq_ok_iff.mpr ⟨_, ih (by omega), rfl⟩

/-! ### Objects -/

theorem finish_eq_ok_iff {cs : List Char} : finish cs = .ok () ↔ Blank cs := by
  rw [finish]
  constructor
  · intro h
    split at h
    · next hempty => exact List.dropWhile_eq_nil_iff.mp (List.isEmpty_iff.mp hempty)
    · cases h
  · intro h
    rw [skipBlanks, List.dropWhile_eq_nil_iff.mpr h]
    rfl

theorem isScalar_of_scalar {cs rest : List Char} {v : Value} (h : scalar cs = .ok (v, rest)) :
    v.IsScalar := by
  unfold scalar at h
  split at h
  case h_5 =>
    split at h
    · obtain ⟨_, -, heq⟩ := map_eq_ok_iff.mp h
      cases heq
      trivial
    · cases h
  case h_6 => cases h
  all_goals
    obtain ⟨_, -, heq⟩ := map_eq_ok_iff.mp h
    cases heq
    trivial

theorem value_cases {levels : Nat} {cs rest : List Char} {v : Value}
    (h : value levels cs = .ok (v, rest)) :
    (∃ tail vs, skipBlanks cs = '[' :: tail ∧ v = .array vs) ∨
    (∃ tail ms, skipBlanks cs = '\x7b' :: tail ∧ v = .object ms ∧
      ReadsMembers (levels - 1) true tail ms rest) ∨
    (∃ c tail, skipBlanks cs = c :: tail ∧ scalar (c :: tail) = .ok (v, rest)) := by
  simp only [value, valueWithin] at h
  split at h
  · next tail hskip =>
    split at h
    · cases h
    · obtain ⟨⟨vs, _⟩, -, heq⟩ := map_eq_ok_iff.mp h
      cases heq
      exact .inl ⟨tail, vs, hskip, rfl⟩
  · next tail hskip =>
    split at h
    · cases h
    · obtain ⟨⟨ms, _⟩, hms, heq⟩ := map_eq_ok_iff.mp h
      cases heq
      exact .inr (.inl ⟨tail, ms, hskip, rfl, readsMembers_of_within hms⟩)
  · cases hskip : skipBlanks cs with
    | nil =>
      rw [hskip] at h
      cases h
    | cons c tail =>
      rw [hskip] at h
      exact .inr (.inr ⟨c, tail, rfl, h⟩)

theorem value_of_scalar {cs tail rest : List Char} {c : Char} {v : Value}
    (hskip : skipBlanks cs = c :: tail) (h : scalar (c :: tail) = .ok (v, rest)) (levels : Nat) :
    value levels cs = .ok (v, rest) :=
  valueWithin_of_scalar hskip h _ levels

theorem value_of_members {levels : Nat} (hlevels : 1 < levels) {cs tail rest : List Char}
    {ms : List (String × Value)} (hskip : skipBlanks cs = '\x7b' :: tail)
    (h : ReadsMembers (levels - 1) true tail ms rest) : value levels cs = .ok (.object ms, rest) := by
  have hlen := congrArg List.length hskip
  have hle := (List.dropWhile_sublist isBlank (l := cs)).length_le
  rw [← skipBlanks, hlen, List.length_cons] at hle
  simp only [value, valueWithin, hskip, if_neg (Nat.not_le_of_lt hlevels)]
  exact map_eq_ok_iff.mpr ⟨_, h.within (by omega), rfl⟩

theorem parse_eq_object_iff {s : String} {ms : List (String × Value)} :
    parse s = .ok (.object ms) ↔ ∃ front cs rest, Blank front ∧ Blank rest ∧
      s = String.ofList (front ++ '\x7b' :: cs) ∧ ReadsMembers (maxLevels - 1) true cs ms rest := by
  constructor
  · intro h
    obtain ⟨⟨v, rest⟩, hvalue, h⟩ := bind_eq_ok_iff.mp h
    obtain ⟨⟨⟩, hfinish, h⟩ := bind_eq_ok_iff.mp h
    cases h
    rcases value_cases hvalue with ⟨_, _, _, heq⟩ | ⟨cs, ms', hskip, heq, hms⟩ | ⟨_, _, _, hread⟩
    · cases heq
    · cases heq
      obtain ⟨-, front, hfront, hs⟩ := skipBlanks_eq_cons hskip
      refine ⟨front, cs, rest, hfront, finish_eq_ok_iff.mp hfinish, ?_, hms⟩
      rw [← hs, String.ofList_toList]
    · exact (isScalar_of_scalar hread).elim
  · rintro ⟨front, cs, rest, hfront, hrest, rfl, hms⟩
    have hskip : skipBlanks (front ++ '\x7b' :: cs) = '\x7b' :: cs :=
      skipBlanks_append hfront (by decide) cs
    rw [parse, String.toList_ofList]
    refine bind_eq_ok_iff.mpr ⟨_, value_of_members (by decide) hskip hms, ?_⟩
    exact bind_eq_ok_iff.mpr ⟨(), finish_eq_ok_iff.mpr hrest, rfl⟩

/-! ### Members -/

/-- A member of an object as it stands in a text, with the blanks around it, and the name and the
value that are read off it. -/
structure Member where
  text : List Char
  name : String
  value : Value
  /-- An object of this member alone is read. -/
  reads : parse (String.ofList ('\x7b' :: (text ++ ['\x7d']))) = .ok (.object [(name, value)])

/-- The name and the value of a member. -/
def Member.entry (m : Member) : String × Value :=
  (m.name, m.value)

/-- The text of an object with the given members, between two texts. -/
def objectText (front : List Char) (ms : List Member) (back : List Char) : String :=
  String.ofList (front ++ '\x7b' :: ([','].intercalate (ms.map Member.text) ++ '\x7d' :: back))

/-- Whether a text is a member wherever it stands: its name, a colon and its value are read off it, and
only blanks are left of it. -/
def IsMember (text : List Char) (name : String) (v : Value) : Prop :=
  ∃ b, Blank b ∧ ∀ rest, EndsNumber (b ++ rest) → ∃ left behind,
    nextName true (text ++ rest) = .ok (some name, left) ∧ colon left = .ok ((), behind) ∧
      value (maxLevels - 1) behind = .ok (v, b ++ rest)

theorem exists_isMember {cs left behind b tail : List Char} {name : String} {v : Value}
    (hname : nextName true cs = .ok (some name, left)) (hcolon : colon left = .ok ((), behind))
    (hvalue : value (maxLevels - 1) behind = .ok (v, b ++ tail)) (hb : Blank b) :
    ∃ text, cs = text ++ tail ∧ IsMember text name v := by
  obtain ⟨used₁, rfl, hread₁⟩ := isLocal_nextName true cs left _ hname
  obtain ⟨used₂, rfl, hread₂⟩ := isLocal_colon left behind () hcolon
  obtain ⟨used₃, rfl, -, hread₃⟩ := value_local hvalue
  refine ⟨used₁ ++ (used₂ ++ (used₃ ++ b)), by simp, b, hb, ?_⟩
  intro rest hrest
  have hafter : MayFollow (b ++ tail) (b ++ rest) := Or.inr hrest
  have hafter₃ := hafter.append used₃
  simp only [List.append_assoc]
  exact ⟨_, _, hread₁ _ (hafter₃.append used₂), hread₂ _ hafter₃, hread₃ _ hafter⟩

theorem nextName_eq_none {first : Bool} {cs rest : List Char}
    (h : nextName first cs = .ok (none, rest)) : ∃ b, Blank b ∧ cs = b ++ '\x7d' :: rest := by
  unfold nextName at h
  split at h
  · next hskip =>
    cases h
    exact (skipBlanks_eq_cons hskip).2
  · split at h
    · obtain ⟨_, -, heq⟩ := map_eq_ok_iff.mp h
      cases heq
    · cases h
  · split at h
    · cases h
    · split at h
      · obtain ⟨_, -, heq⟩ := map_eq_ok_iff.mp h
        cases heq
      · exact absurd h not_refuse_eq_ok
  · exact absurd h not_refuse_eq_ok

theorem nextName_true_iff {cs rest : List Char} {name : String} :
    nextName true cs = .ok (some name, rest) ↔
      ∃ tail, skipBlanks cs = '"' :: tail ∧ text tail = .ok (name, rest) := by
  constructor
  · intro h
    unfold nextName at h
    split at h
    · cases h
    · next tail hskip =>
      obtain ⟨_, htext, heq⟩ := map_eq_ok_iff.mp h
      cases heq
      exact ⟨tail, hskip, htext⟩
    · cases h
    · exact absurd h not_refuse_eq_ok
  · rintro ⟨tail, hskip, htext⟩
    rw [nextName, hskip]
    exact map_eq_ok_iff.mpr ⟨_, htext, rfl⟩

theorem nextName_false_iff {cs rest : List Char} {name : String} :
    nextName false cs = .ok (some name, rest) ↔
      ∃ b tail, Blank b ∧ cs = b ++ ',' :: tail ∧ nextName true tail = .ok (some name, rest) := by
  constructor
  · intro h
    unfold nextName at h
    split at h
    · cases h
    · cases h
    · next tail hskip =>
      obtain ⟨-, b, hb, rfl⟩ := skipBlanks_eq_cons hskip
      simp only [Bool.false_eq_true, if_false] at h
      split at h
      · next hskip' =>
        refine ⟨b, tail, hb, rfl, ?_⟩
        rw [nextName, hskip']
        exact h
      · exact absurd h not_refuse_eq_ok
    · exact absurd h not_refuse_eq_ok
  · rintro ⟨b, tail, hb, rfl, h⟩
    obtain ⟨tail', hskip, htext⟩ := nextName_true_iff.mp h
    rw [nextName, skipBlanks_append hb (by decide)]
    simp only [Bool.false_eq_true, if_false, hskip]
    exact map_eq_ok_iff.mpr ⟨_, htext, rfl⟩

theorem readsMembers_false_iff {levels : Nat} {cs rest : List Char} {m : String × Value}
    {ms : List (String × Value)} :
    ReadsMembers levels false cs (m :: ms) rest ↔
      ∃ b tail, Blank b ∧ cs = b ++ ',' :: tail ∧ ReadsMembers levels true tail (m :: ms) rest := by
  constructor
  · intro h
    cases h with
    | member hname hcolon hvalue hms =>
      obtain ⟨b, tail, hb, rfl, hname'⟩ := nextName_false_iff.mp hname
      exact ⟨b, tail, hb, rfl, .member hname' hcolon hvalue hms⟩
  · rintro ⟨b, tail, hb, rfl, h⟩
    cases h with
    | member hname hcolon hvalue hms =>
      exact .member (nextName_false_iff.mpr ⟨b, tail, hb, rfl, hname⟩) hcolon hvalue hms

theorem endsNumber_comma {b : List Char} (hb : Blank b) (rest : List Char) :
    EndsNumber (b ++ ',' :: rest) :=
  endsNumber_append hb (by decide) rest

theorem endsNumber_brace {b : List Char} (hb : Blank b) (rest : List Char) :
    EndsNumber (b ++ '\x7d' :: rest) :=
  endsNumber_append hb (by decide) rest

theorem eq_nil_of_append_brace {cs cs' rest : List Char} (hrest : Blank rest)
    (h : cs ++ ['\x7d'] = cs' ++ rest) : rest = [] := by
  rcases List.eq_nil_or_concat rest with hnil | ⟨init, c, rfl⟩
  · exact hnil
  · rw [List.concat_eq_append, ← List.append_assoc] at h
    have hc := (List.append_inj' h rfl).2
    have hblank := hrest c (by simp)
    rw [← List.singleton_inj.mp hc] at hblank
    exact absurd hblank (by decide)

theorem parse_singleton_iff {text : List Char} {name : String} {v : Value} :
    parse (String.ofList ('\x7b' :: (text ++ ['\x7d']))) = .ok (.object [(name, v)]) ↔
      IsMember text name v := by
  rw [parse_eq_object_iff]
  constructor
  · rintro ⟨front, cs, rest, hfront, hrest, heq, hms⟩
    have hfront' : front = [] := by
      cases front with
      | nil => rfl
      | cons c front =>
        have hc := congrArg List.head? (String.ofList_injective heq)
        cases hc
        exact absurd (hfront _ List.mem_cons_self) (by decide)
    subst hfront'
    cases String.ofList_injective heq
    cases hms with
    | member hname hcolon hvalue hms =>
      cases hms with
      | close hclose =>
        obtain ⟨b, hb, rfl⟩ := nextName_eq_none hclose
        obtain ⟨text', htext, hmember⟩ := exists_isMember hname hcolon hvalue hb
        have hrest' : rest = [] :=
          eq_nil_of_append_brace hrest (htext.trans (List.append_cons _ _ _))
        subst hrest'
        rw [(List.append_inj' htext rfl).1]
        exact hmember
  · rintro ⟨b, hb, hread⟩
    obtain ⟨left, behind, hname, hcolon, hvalue⟩ := hread ['\x7d'] (endsNumber_brace hb [])
    exact ⟨[], _, [], blank_nil, blank_nil, rfl,
      .member hname hcolon hvalue (.close (nextName_close false hb []))⟩

theorem readsMembers_intercalate {ms : List Member} (hne : ms ≠ []) (rest : List Char) :
    ReadsMembers (maxLevels - 1) true ([','].intercalate (ms.map Member.text) ++ '\x7d' :: rest)
      (ms.map Member.entry) rest := by
  induction ms with
  | nil => exact absurd rfl hne
  | cons m ms ih =>
    obtain ⟨b, hb, hread⟩ := parse_singleton_iff.mp m.reads
    cases ms with
    | nil =>
      obtain ⟨left, behind, hname, hcolon, hvalue⟩ := hread ('\x7d' :: rest) (endsNumber_brace hb rest)
      have hclose := nextName_close false hb rest
      simpa [Member.entry] using ReadsMembers.member hname hcolon hvalue (.close hclose)
    | cons l ms =>
      have htail := readsMembers_false_iff.mpr ⟨b, _, hb, rfl, ih (by simp)⟩
      obtain ⟨left, behind, hname, hcolon, hvalue⟩ := hread _ (endsNumber_comma hb _)
      simpa [Member.entry] using ReadsMembers.member hname hcolon hvalue htail

/-- **A row of members is read as an object of these members.** -/
theorem parse_objectText {front back : List Char} (hfront : Blank front) (hback : Blank back)
    (ms : List Member) :
    parse (objectText front ms back) = .ok (.object (ms.map Member.entry)) := by
  refine parse_eq_object_iff.mpr ⟨front, _, back, hfront, hback, rfl, ?_⟩
  by_cases hne : ms = []
  · subst hne
    exact .close (nextName_close true blank_nil back)
  · exact readsMembers_intercalate hne back

theorem exists_members {cs rest : List Char} {m : String × Value} {ms : List (String × Value)}
    (h : ReadsMembers (maxLevels - 1) true cs (m :: ms) rest) :
    ∃ members : List Member, members.map Member.entry = m :: ms ∧
      cs = [','].intercalate (members.map Member.text) ++ '\x7d' :: rest := by
  induction ms generalizing cs m with
  | nil =>
    cases h with
    | member hname hcolon hvalue hms =>
      cases hms with
      | close hclose =>
        obtain ⟨b, hb, rfl⟩ := nextName_eq_none hclose
        obtain ⟨text, rfl, hmember⟩ := exists_isMember hname hcolon hvalue hb
        exact ⟨[⟨text, _, _, parse_singleton_iff.mpr hmember⟩], rfl, by simp⟩
  | cons l ms ih =>
    cases h with
    | member hname hcolon hvalue hms =>
      obtain ⟨b, tail, hb, rfl, htail⟩ := readsMembers_false_iff.mp hms
      obtain ⟨members, hentries, rfl⟩ := ih htail
      obtain ⟨text, rfl, hmember⟩ := exists_isMember hname hcolon hvalue hb
      refine ⟨⟨text, _, _, parse_singleton_iff.mpr hmember⟩ :: members, ?_, ?_⟩
      · rw [List.map_cons, hentries]
        rfl
      · obtain ⟨l', members, rfl⟩ : ∃ l' tail, members = l' :: tail := by
          cases members with
          | nil => cases hentries
          | cons l' tail => exact ⟨l', tail, rfl⟩
        simp

/-- **Every text that is read as an object with members is a row of these members.** -/
theorem exists_objectText {s : String} {m : String × Value} {ms : List (String × Value)}
    (h : parse s = .ok (.object (m :: ms))) :
    ∃ front members back, Blank front ∧ Blank back ∧
      s = objectText front members back ∧ members.map Member.entry = m :: ms := by
  obtain ⟨front, cs, back, hfront, hback, rfl, hms⟩ := parse_eq_object_iff.mp h
  obtain ⟨members, hentries, rfl⟩ := exists_members hms
  exact ⟨front, members, back, hfront, hback, rfl, hentries⟩

end ShaderReport.Json
